import Triangles.Proofs.AccountEntries
import Triangles.Proofs.Balance

/-! The balance of one account, and the balances of all of them. -/

namespace Triangles

open Outcome Sums Trace
open Std (ExtTreeMap)

namespace AccountWallet

variable {w : AccountWallet} {wtx : WalletRecord} {view : ChainView} {nMinDepth : Int}
  {strAccount : List UInt8}

/-! One transaction and one account. -/

def receivedBy (w : AccountWallet) (strAccount : List UInt8) (wtx : WalletRecord) : Int :=
  ((wtx.tx.vout.filter fun txout => w.accountOf (w.listed txout).1 == strAccount &&
    w.received wtx txout).map CTxOut.nValue).sum

def paidBy (w : AccountWallet) (strAccount : List UInt8) (wtx : WalletRecord) : Int :=
  if strAccount = wtx.strFromAccount then
    ((wtx.tx.vout.filter (w.sent wtx)).map CTxOut.nValue).sum + w.fee wtx
  else 0

/-- What it comes to for the account, where it counts. -/
def accountShare (view : ChainView) (w : AccountWallet) (nMinDepth : Int) (strAccount : List UInt8)
    (wtx : WalletRecord) : Int :=
  (if nMinDepth ≤ view.getDepthInMainChain wtx.toCMerkleTx ∧ Mature view wtx then
    w.receivedBy strAccount wtx else 0) - w.paidBy strAccount wtx

theorem addReceived_eq (nReceived : Int) (r : CTxDestination × Int) :
    w.addReceived strAccount nReceived r =
      nReceived + if w.accountOf r.1 = strAccount then r.2 else 0 := by
  unfold addReceived accountOf
  cases w.mapAddressBook.lookup r.1 with
  | some strName =>
    simp only [Option.getD_some]
    split_ifs <;> simp
  | none =>
    have hempty : (strAccount.isEmpty = true) = ([] = strAccount) := by
      rw [List.isEmpty_iff, eq_comm]
      exact propext eq_comm
    simp only [Option.getD_none, hempty]
    split_ifs <;> simp

/-- The amounts of the account among those that are received. -/
theorem sum_received (strAccount : List UInt8) (wtx : WalletRecord) :
    (((wtx.tx.vout.filter (w.received wtx)).map w.listed).map fun r =>
      if w.accountOf r.1 = strAccount then r.2 else 0).sum = w.receivedBy strAccount wtx := by
  rw [receivedBy, ← List.filter_filter, sum_filter, List.map_map]
  refine sum_congr fun txout _ => ?_
  simp only [Function.comp, beq_iff_eq]
  rfl

theorem sum_sent (wtx : WalletRecord) :
    (((wtx.tx.vout.filter (w.sent wtx)).map w.listed).map Prod.snd).sum =
      ((wtx.tx.vout.filter (w.sent wtx)).map CTxOut.nValue).sum := by
  rw [List.map_map]
  rfl

theorem getAccountAmounts_eq {amounts : Amounts} (h : w.getAmounts wtx = .ok amounts) :
    w.getAccountAmounts strAccount wtx = .ok (w.receivedBy strAccount wtx,
      if strAccount = wtx.strFromAccount then
        (((wtx.tx.vout.filter (w.sent wtx)).map CTxOut.nValue).sum, w.fee wtx)
      else (0, 0)) := by
  obtain ⟨-, rfl⟩ := getAmounts_ok h
  have hreceived : ∀ (l : List (CTxDestination × Int)) (n : Int), l.foldl (w.addReceived strAccount) n =
      n + (l.map fun r => if w.accountOf r.1 = strAccount then r.2 else 0).sum := by
    intro l n
    rw [← foldl_add]
    exact congrFun (congrFun (congrArg _ (funext₂ addReceived_eq)) n) l
  rw [getAccountAmounts, h]
  change (if strAccount = wtx.strFromAccount then pure _ else pure _) = _
  rw [hreceived, sum_received, zero_add, foldl_add, sum_sent, zero_add]
  split_ifs <;> rfl

/-- The transactions that `GetAccountBalance` goes by. -/
def Counted (view : ChainView) (wtx : WalletRecord) : Prop :=
  view.isFinal wtx.tx = true ∧ 0 ≤ view.getDepthInMainChain wtx.toCMerkleTx

instance (view : ChainView) (wtx : WalletRecord) : Decidable (Counted view wtx) :=
  inferInstanceAs (Decidable (_ ∧ _))

/-- One transaction in the balance of an account. -/
theorem addToAccount_eq {nBalance : Int} (h : 0 ≤ view.getDepthInMainChain wtx.toCMerkleTx →
      ∃ amounts, w.getAmounts wtx = .ok amounts) :
    w.addToAccount view strAccount nMinDepth nBalance wtx = .ok (nBalance +
      if Counted view wtx then w.accountShare view nMinDepth strAccount wtx else 0) := by
  have hskip : (!view.isFinal wtx.tx ||
      decide (view.getDepthInMainChain wtx.toCMerkleTx < 0)) = !decide (Counted view wtx) := by
    rw [← decide_not]
    cases hfinal : view.isFinal wtx.tx <;> simp [Counted, hfinal]
  unfold addToAccount
  simp only [hskip]
  by_cases hcounted : Counted view wtx
  · obtain ⟨amounts, hamounts⟩ := h hcounted.2
    rw [decide_eq_true hcounted, Bool.not_true, if_neg Bool.false_ne_true, if_pos hcounted,
      getAccountAmounts_eq hamounts]
    refine congrArg Except.ok ?_
    have hpaid : (if strAccount = wtx.strFromAccount then
        (((wtx.tx.vout.filter (w.sent wtx)).map CTxOut.nValue).sum, w.fee wtx) else (0, 0)).1 +
        (if strAccount = wtx.strFromAccount then
          (((wtx.tx.vout.filter (w.sent wtx)).map CTxOut.nValue).sum, w.fee wtx) else (0, 0)).2 =
        w.paidBy strAccount wtx := by
      unfold paidBy
      split_ifs
      · rfl
      · exact add_zero 0
    simp only [hpaid]
    rw [accountShare]
    -- what is received is added when it is not zero
    by_cases hmature : nMinDepth ≤ view.getDepthInMainChain wtx.toCMerkleTx ∧ Mature view wtx
    · rw [if_pos hmature]
      by_cases hzero : w.receivedBy strAccount wtx = 0
      · rw [if_neg fun hall => hall.1 hzero, hzero]
        omega
      · rw [if_pos ⟨hzero, hmature.1, hmature.2⟩]
        omega
    · rw [if_neg hmature, if_neg fun hall => hmature hall.2]
      omega
  · rw [decide_eq_false hcounted, Bool.not_false, if_pos rfl, if_neg hcounted, add_zero]

/-! Balances by account. -/

theorem getD_credit (balances : Balances) (account : List UInt8) (nAmount : Int) :
    (credit balances account nAmount).getD strAccount 0 =
      balances.getD strAccount 0 + if account = strAccount then nAmount else 0 := by
  rw [credit, ExtTreeMap.getD_insert]
  by_cases h : account = strAccount
  · rw [if_pos (Std.LawfulEqCmp.compare_eq_iff_eq.mpr h), if_pos h, h]
  · rw [if_neg fun heq => h (Std.LawfulEqCmp.compare_eq_iff_eq.mp heq), if_neg h, add_zero]

/-- Amounts that are credited one after the other. -/
theorem getD_foldl_credit {α : Type} (account : α → List UInt8) (nAmount : α → Int) (l : List α)
    (balances : Balances) :
    (l.foldl (fun balances x => credit balances (account x) (nAmount x)) balances).getD strAccount 0 =
      balances.getD strAccount 0 +
        (l.map fun x => if account x = strAccount then nAmount x else 0).sum := by
  induction l generalizing balances with
  | nil => simp
  | cons x l ih => rw [List.foldl_cons, ih, getD_credit, List.map_cons, List.sum_cons, add_assoc]

/-- What is taken from the account that has paid. -/
theorem paid_eq (strAccount : List UInt8) (wtx : WalletRecord) :
    (if wtx.strFromAccount = strAccount then -w.fee wtx else 0) +
      (((wtx.tx.vout.filter (w.sent wtx)).map w.listed).map fun s =>
        if wtx.strFromAccount = strAccount then -s.2 else 0).sum = -w.paidBy strAccount wtx := by
  unfold paidBy
  by_cases h : wtx.strFromAccount = strAccount
  · have hneg : ∀ l : List (CTxDestination × Int), (l.map fun s => -s.2).sum = -(l.map Prod.snd).sum := by
      intro l
      induction l with
      | nil => rfl
      | cons s l ih => rw [List.map_cons, List.sum_cons, ih, List.map_cons, List.sum_cons, neg_add]
    simp only [if_pos h, if_pos h.symm]
    rw [hneg, sum_sent]
    omega
  · simp only [if_neg h, if_neg (Ne.symm h)]
    rw [zero_add, neg_zero]
    refine List.sum_eq_zero fun n hn => ?_
    obtain ⟨_, -, rfl⟩ := List.mem_map.mp hn
    rfl

/-- One transaction in the balances of all accounts. -/
theorem creditAmounts_ok {balances balances' : Balances}
    (h : w.creditAmounts view nMinDepth balances wtx = .ok balances') :
    (balances'.getD strAccount 0 = balances.getD strAccount 0 +
      if 0 ≤ view.getDepthInMainChain wtx.toCMerkleTx then
        w.accountShare view nMinDepth strAccount wtx else 0) ∧
    (0 ≤ view.getDepthInMainChain wtx.toCMerkleTx → ∃ amounts, w.getAmounts wtx = .ok amounts) := by
  unfold creditAmounts at h
  simp only at h
  by_cases hdepth : view.getDepthInMainChain wtx.toCMerkleTx < 0
  · rw [if_pos hdepth] at h
    rw [if_neg (not_le.mpr hdepth), Except.ok.inj h, add_zero]
    exact ⟨rfl, fun hle => absurd hdepth (not_lt.mpr hle)⟩
  · rw [if_neg hdepth, bind_ok] at h
    obtain ⟨amounts, hamounts, h⟩ := h
    refine ⟨?_, fun _ => ⟨amounts, hamounts⟩⟩
    obtain ⟨-, rfl⟩ := getAmounts_ok hamounts
    dsimp only at h
    have hpaid := paid_eq (w := w) strAccount wtx
    rw [if_pos (not_lt.mp hdepth), accountShare]
    by_cases hmature : nMinDepth ≤ view.getDepthInMainChain wtx.toCMerkleTx ∧
        view.getBlocksToMaturity wtx.toCMerkleTx = 0
    · have hshare : nMinDepth ≤ view.getDepthInMainChain wtx.toCMerkleTx ∧ Mature view wtx := hmature
      rw [if_pos hmature] at h
      rw [if_pos hshare, ← pure_ok.mp h, getD_foldl_credit (fun r => w.accountOf r.1) Prod.snd,
        getD_foldl_credit (fun _ => wtx.strFromAccount) fun s : CTxDestination × Int => -s.2,
        getD_credit, sum_received]
      omega
    · have hshare : ¬ (nMinDepth ≤ view.getDepthInMainChain wtx.toCMerkleTx ∧ Mature view wtx) := hmature
      rw [if_neg hmature] at h
      rw [if_neg hshare, ← pure_ok.mp h,
        getD_foldl_credit (fun _ => wtx.strFromAccount) fun s : CTxDestination × Int => -s.2, getD_credit]
      omega

theorem getD_ownAccounts (w : AccountWallet) (strAccount : List UInt8) :
    w.ownAccounts.getD strAccount 0 = 0 := by
  unfold ownAccounts
  suffices hall : ∀ (l : List (Sigma fun _ : CTxDestination => List UInt8)) (balances : Balances),
      balances.getD strAccount 0 = 0 → (l.foldl (fun balances entry =>
        if w.keystore.isMineDest entry.1 then balances.insert entry.2 0 else balances) balances).getD
          strAccount 0 = 0 by
    exact hall _ _ ExtTreeMap.getD_empty
  intro l
  induction l with
  | nil => exact fun _ h => h
  | cons entry l ih =>
    intro balances h
    refine ih _ ?_
    beta_reduce
    split_ifs
    · rw [ExtTreeMap.getD_insert, h, ite_self]
    · exact h

/-! The two calls. -/

variable {db : WalletDb} {entries : List CAccountingEntry}

def unfinished (view : ChainView) (w : AccountWallet) (nMinDepth : Int) (strAccount : List UInt8) :
    Int :=
  (w.records.map fun wtx =>
    if view.isFinal wtx.tx = false ∧ 0 ≤ view.getDepthInMainChain wtx.toCMerkleTx then
      w.accountShare view nMinDepth strAccount wtx
    else 0).sum

/-- The entries of other accounts, when the account has the name that stands for all of them. -/
def othersEntries (entries : List CAccountingEntry) (strAccount : List UInt8) : Int :=
  if strAccount = ascii "*" then
    ((entries.filter fun e => e.strAccount != strAccount).map CAccountingEntry.nCreditDebit).sum
  else 0

/-- What all the transactions come to, final or not. -/
theorem sum_shares (view : ChainView) (w : AccountWallet) (nMinDepth : Int) (strAccount : List UInt8) :
    (w.records.map fun wtx => if 0 ≤ view.getDepthInMainChain wtx.toCMerkleTx then
      w.accountShare view nMinDepth strAccount wtx else 0).sum =
    (w.records.map fun wtx => if Counted view wtx then
      w.accountShare view nMinDepth strAccount wtx else 0).sum +
      w.unfinished view nMinDepth strAccount := by
  rw [unfinished, ← sum_add]
  refine sum_congr fun wtx _ => ?_
  have hcounted : Counted view wtx ↔
    view.isFinal wtx.tx = true ∧ 0 ≤ view.getDepthInMainChain wtx.toCMerkleTx := Iff.rfl
  simp only [hcounted]
  cases view.isFinal wtx.tx <;> simp

/-- The entries that the call for the account adds up, and those it credits the account with. -/
theorem sum_sought (entries : List CAccountingEntry) (strAccount : List UInt8) :
    ((entries.filter (sought strAccount)).map CAccountingEntry.nCreditDebit).sum =
      (entries.map fun e => if e.strAccount = strAccount then e.nCreditDebit else 0).sum +
        othersEntries entries strAccount := by
  unfold othersEntries
  rw [sum_filter]
  split_ifs with hstar
  · rw [sum_filter, ← sum_add]
    refine sum_congr fun e _ => ?_
    have hsought : sought strAccount e = true := by rw [sought, hstar]; rfl
    rw [hsought, if_pos rfl]
    by_cases hsame : e.strAccount = strAccount <;> simp [hsame]
  · rw [add_zero]
    refine sum_congr fun e _ => ?_
    simp [sought, hstar]

/-- What depends on the accounts and the amounts only is the same for what is read. -/
theorem sum_credits {l m : List CAccountingEntry} (h : (l.map creditOf).Perm (m.map creditOf))
    (f : List UInt8 × Int → Int) :
    (l.map fun e => f (e.strAccount, e.nCreditDebit)).sum =
      (m.map fun e => f (e.strAccount, e.nCreditDebit)).sum := by
  have hsum := (h.map f).sum_eq
  rw [List.map_map, List.map_map] at hsum
  exact hsum

/-- What is credited to an account, and what `GetAccountBalance` makes of it. -/
theorem listAccounts_ok (hdb : Holds db entries) {ret : List (List UInt8 × Int)}
    (h : w.listAccounts view db nMinDepth = .ok ret) {nBalance : Int}
    (hmem : (strAccount, nBalance) ∈ ret) :
    ∃ b, w.getAccountBalance view db strAccount nMinDepth = .ok b ∧
      nBalance + othersEntries entries strAccount = b + w.unfinished view nMinDepth strAccount := by
  rw [listAccounts, bind_ok] at h
  obtain ⟨balances, hbalances, h⟩ := h
  rw [bind_ok] at h
  obtain ⟨acentries, hentries, h⟩ := h
  obtain rfl := pure_ok.mp h
  obtain ⟨hsum, hamounts⟩ := foldlM_measured (q := fun balances => balances.getD strAccount 0)
    (fun _ _ _ hstep => creditAmounts_ok hstep) hbalances
  obtain ⟨hall, hread⟩ := listed_all hdb hentries
  obtain ⟨l, hl, hsought⟩ := listed_account hdb strAccount hread
  have hstep : ∀ a, ∀ wtx ∈ w.records, w.addToAccount view strAccount nMinDepth a wtx = .ok (a +
      if Counted view wtx then w.accountShare view nMinDepth strAccount wtx else 0) :=
    fun a wtx hwtx => addToAccount_eq (hamounts wtx hwtx)
  have hloop := foldlM_adds hstep 0
  refine ⟨0 + (w.records.map fun wtx => if Counted view wtx then
    w.accountShare view nMinDepth strAccount wtx else 0).sum +
      l.foldl (fun nCreditDebit entry => nCreditDebit + entry.nCreditDebit) 0, ?_, ?_⟩
  · rw [getAccountBalance, getAccountCreditDebit, hl]
    change (w.records.foldlM (w.addToAccount view strAccount nMinDepth) 0 >>= _) = _
    rw [hloop]
    rfl
  · have hlisted : nBalance = (acentries.foldl (fun balances entry =>
        credit balances entry.strAccount entry.nCreditDebit) balances).getD strAccount 0 := by
      rw [ExtTreeMap.getD_eq_getD_getElem?, ExtTreeMap.mem_toList_iff_getElem?_eq_some.mp hmem,
        Option.getD_some]
    have hcredits := sum_credits hall fun r => if r.1 = strAccount then r.2 else 0
    have hdebits := sum_credits hsought Prod.snd
    dsimp only at hcredits hdebits
    rw [sum_sought entries strAccount] at hdebits
    rw [getD_foldl_credit CAccountingEntry.strAccount CAccountingEntry.nCreditDebit, hcredits, hsum,
      getD_ownAccounts] at hlisted
    have hshares := sum_shares view w nMinDepth strAccount
    rw [foldl_add, hdebits, hlisted]
    rw [records] at hshares ⊢
    rw [hshares]
    omega

/-- The call for all accounts returns when the amounts are those of money and the entries can be
read. -/
theorem listAccounts_succeeds (hdb : Holds db entries) (hrange : w.Ranged)
    (hread : ∀ e ∈ entries, Readable db e) :
    ∃ ret, w.listAccounts view db nMinDepth = .ok ret := by
  obtain ⟨l, hl, -⟩ := listed_account hdb (ascii "*") hread
  have hloop : ∃ balances, w.records.foldlM (w.creditAmounts view nMinDepth) w.ownAccounts =
      .ok balances := by
    refine foldlM_succeeds (fun balances wtx hwtx => ?_) _
    obtain ⟨amounts, hamounts⟩ := hrange.getAmounts_succeeds hwtx
    unfold creditAmounts
    simp only
    split_ifs
    · exact ⟨balances, rfl⟩
    · rw [hamounts]
      exact ⟨_, rfl⟩
    · rw [hamounts]
      exact ⟨_, rfl⟩
  obtain ⟨balances, hbalances⟩ := hloop
  rw [listAccounts]
  change ∃ ret, (w.records.foldlM (w.creditAmounts view nMinDepth) w.ownAccounts >>= _) = .ok ret
  rw [hbalances, hl]
  exact ⟨_, rfl⟩

/-- For each account that is listed the two numbers agree when the transactions that are not final
come to nothing for it, or to the entries of others for the name that stands for all. -/
theorem listaccounts_agrees_iff (hdb : Holds db entries) :
    (∀ ret, w.listAccounts view db nMinDepth = .ok ret → ∀ strAccount nBalance,
      (strAccount, nBalance) ∈ ret →
        ∃ b, w.getAccountBalance view db strAccount nMinDepth = .ok b ∧
          (nBalance = b ↔ w.unfinished view nMinDepth strAccount = othersEntries entries strAccount)) ∧
    (w.Ranged → (∀ e ∈ entries, Readable db e) → ∃ ret, w.listAccounts view db nMinDepth = .ok ret) := by
  refine ⟨fun ret h strAccount nBalance hmem => ?_, listAccounts_succeeds hdb⟩
  obtain ⟨b, hb, hdiff⟩ := listAccounts_ok hdb h hmem
  exact ⟨b, hb, by omega⟩

end AccountWallet

namespace Sample

def locked : WalletRecord where
  tx := { nTime := 3, vin := [⟨⟨98, 0⟩, [], 0⟩], vout := [⟨40, payTo bookId⟩], nLockTime := 900 }

def lockedWallet : AccountWallet where
  keystore := bookKeys
  mapWallet := (∅ : ExtTreeMap uint256 WalletRecord compare).insert 7 locked
  mapAddressBook := AList.singleton (.keyID bookId) (ascii "till")

def lockedView : ChainView where
  isFinal tx := tx.nLockTime == 0
  getDepthInMainChain _ := 0
  nCoinbaseMaturity := 30

def entryDb : AccountWallet.WalletDb :=
  (∅ : AccountWallet.WalletDb).insert (AccountWallet.keyOf moveEntry) (moveEntry.serialize 60000).1

end Sample

namespace AccountWallet

theorem entryDb_holds : Holds Sample.entryDb [Sample.moveEntry] where
  keys_nodup := List.nodup_singleton _
  ranged e he := by
    obtain rfl := List.mem_singleton.mp he
    exact ⟨by decide, by decide⟩
  written e he := by
    obtain rfl := List.mem_singleton.mp he
    exact ⟨60000, by rw [Sample.entryDb, ExtTreeMap.getElem?_insert_self]⟩
  others k hk := by
    rw [Sample.entryDb, ExtTreeMap.mem_insert] at hk
    rcases hk with hk | hk
    · exact .inl ⟨_, List.mem_singleton_self _, (Std.LawfulEqCmp.compare_eq_iff_eq.mp hk).symm⟩
    · exact absurd hk ExtTreeMap.not_mem_empty

theorem lockedWallet_agrees_iff :
    (∀ ret, Sample.lockedWallet.listAccounts Sample.lockedView Sample.entryDb 1 = .ok ret →
      ∀ strAccount nBalance, (strAccount, nBalance) ∈ ret →
        ∃ b, Sample.lockedWallet.getAccountBalance Sample.lockedView Sample.entryDb strAccount 1 = .ok b ∧
          (nBalance = b ↔ Sample.lockedWallet.unfinished Sample.lockedView 1 strAccount =
            othersEntries [Sample.moveEntry] strAccount)) ∧
    (Sample.lockedWallet.Ranged → (∀ e ∈ [Sample.moveEntry], Readable Sample.entryDb e) →
      ∃ ret, Sample.lockedWallet.listAccounts Sample.lockedView Sample.entryDb 1 = .ok ret) :=
  listaccounts_agrees_iff entryDb_holds

/-- A payment that is not final is in one of the numbers and not in the other. -/
theorem lockedWallet_differs :
    Holds (∅ : WalletDb) [] ∧
      Sample.lockedWallet.listAccounts Sample.lockedView ∅ 0 = .ok [([], 0), (ascii "till", 40)] ∧
      Sample.lockedWallet.getAccountBalance Sample.lockedView ∅ (ascii "till") 0 = .ok 0 := by
  refine ⟨⟨List.nodup_nil, ?_, ?_, ?_⟩, ?_, ?_⟩
  · intro e he
    cases he
  · intro e he
    cases he
  · intro k hk
    exact absurd hk ExtTreeMap.not_mem_empty
  · rfl
  · rfl

end AccountWallet

end Triangles
