import Triangles.Model.WalletCalls
import Triangles.Proofs.SpentFlags

/-! What `FixSpentCoins` leaves: flags that agree with the index, also where a payment is under way. -/

namespace Triangles

namespace CWallet

variable {env : Env} {txdb : CTxDB} {w : CWallet} {txindex : CTxIndex} {pcoin : CWalletTx}

/-! One coin. -/

/-- The flags of the own outputs are those of the index. -/
def Agrees (w : CWallet) (txindex : CTxIndex) (pcoin : CWalletTx) : Prop :=
  ∀ n, w.OwnOut pcoin.tx n → pcoin.isSpent n = txindex.hasSpent n

/-- One round of the repair leaves the transaction, and an output that is not own. -/
theorem fixOutput_other (m : Mismatches) {o : CTxOut × Nat} {n : Nat} (h : n < pcoin.tx.vout.length)
    (hother : w.isMine o.1 = false ∨ o.2 ≠ n) :
    (w.fixOutput txindex false (m, pcoin) o).2.isSpent n = pcoin.isSpent n := by
  unfold fixOutput
  simp only [Bool.false_eq_true, if_false]
  rcases hother with hmine | hne
  · rw [hmine, Bool.false_and, Bool.false_and, Bool.false_and, Bool.false_and]
    rfl
  · split_ifs
    · rw [CWalletTx.markUnspent_isSpent h, decide_eq_false hne, Bool.not_false, Bool.and_true]
    · rw [CWalletTx.markSpent_isSpent h, decide_eq_false hne, Bool.or_false]
    · rfl

/-- It sets the flag of an own output to that of the index. -/
theorem fixOutput_own (m : Mismatches) {o : CTxOut × Nat} (h : o.2 < pcoin.tx.vout.length)
    (hmine : w.isMine o.1 = true) :
    (w.fixOutput txindex false (m, pcoin) o).2.isSpent o.2 = txindex.hasSpent o.2 := by
  unfold fixOutput
  simp only [Bool.false_eq_true, if_false, hmine, Bool.true_and]
  cases hflag : pcoin.isSpent o.2 <;> cases txindex.hasSpent o.2 <;>
    simp [hflag, CWalletTx.markSpent_isSpent h, CWalletTx.markUnspent_isSpent h]

theorem fixOutput_tx (fCheckOnly : Bool) (m : Mismatches) (o : CTxOut × Nat) :
    (w.fixOutput txindex fCheckOnly (m, pcoin) o).2.tx = pcoin.tx := by
  unfold fixOutput
  simp only
  split_ifs <;> rfl

/-- After the loop the flags of the own outputs it has seen are those of the index. -/
theorem fixOutputs_isSpent (l : List (CTxOut × Nat)) (s : Mismatches × CWalletTx) {n : Nat}
    (h : n < s.2.tx.vout.length) :
    (l.foldl (w.fixOutput txindex false) s).2.tx = s.2.tx ∧
      (l.foldl (w.fixOutput txindex false) s).2.isSpent n =
        if ∃ o ∈ l, o.2 = n ∧ w.isMine o.1 = true then txindex.hasSpent n else s.2.isSpent n := by
  induction l generalizing s with
  | nil =>
    rw [if_neg]
    · exact ⟨rfl, rfl⟩
    · rintro ⟨o, ho, -⟩
      cases ho
  | cons o l ih =>
    obtain ⟨m, pcoin⟩ := s
    have htx : (w.fixOutput txindex false (m, pcoin) o).2.tx = pcoin.tx := fixOutput_tx false m o
    obtain ⟨htx', hflag⟩ := ih (w.fixOutput txindex false (m, pcoin) o) (by rw [htx]; exact h)
    refine ⟨htx'.trans htx, ?_⟩
    rw [List.foldl_cons, hflag]
    by_cases hlater : ∃ o ∈ l, o.2 = n ∧ w.isMine o.1 = true
    · obtain ⟨o', ho', hown⟩ := hlater
      rw [if_pos ⟨o', ho', hown⟩, if_pos ⟨o', List.mem_cons_of_mem o ho', hown⟩]
    · rw [if_neg hlater]
      by_cases hown : o.2 = n ∧ w.isMine o.1 = true
      · rw [if_pos ⟨o, List.mem_cons_self, hown⟩]
        obtain ⟨rfl, hmine⟩ := hown
        exact fixOutput_own m h hmine
      · rw [if_neg]
        · refine fixOutput_other m h ?_
          by_contra hnot
          rw [not_or, Bool.not_eq_false, not_not] at hnot
          exact hown ⟨hnot.2, hnot.1⟩
        · rintro ⟨o', ho', hown'⟩
          rcases List.mem_cons.mp ho' with rfl | ho'
          · exact hown hown'
          · exact hlater ⟨o', ho', hown'⟩

/-- The outputs of a transaction with their places. -/
theorem ownOut_iff {tx : CTransaction} {n : Nat} :
    w.OwnOut tx n ↔ ∃ o ∈ tx.vout.zipIdx, o.2 = n ∧ w.isMine o.1 = true := by
  constructor
  · rintro ⟨txout, hout, hmine⟩
    exact ⟨(txout, n), List.mem_zipIdx_iff_getElem?.mpr hout, rfl, hmine⟩
  · rintro ⟨o, ho, rfl, hmine⟩
    exact ⟨o.1, List.mem_zipIdx_iff_getElem?.mp ho, hmine⟩

/-- A coin whose flags agree with the index is not in question. -/
theorem fixOutputs_agrees (fCheckOnly : Bool) (m : Mismatches) (h : w.Agrees txindex pcoin) :
    pcoin.tx.vout.zipIdx.foldl (w.fixOutput txindex fCheckOnly) (m, pcoin) = (m, pcoin) := by
  suffices hall : ∀ l : List (CTxOut × Nat), (∀ o ∈ l, o ∈ pcoin.tx.vout.zipIdx) →
      l.foldl (w.fixOutput txindex fCheckOnly) (m, pcoin) = (m, pcoin) from
    hall _ fun _ ho => ho
  intro l
  induction l with
  | nil => exact fun _ => rfl
  | cons o l ih =>
    intro hl
    have hround : w.fixOutput txindex fCheckOnly (m, pcoin) o = (m, pcoin) := by
      unfold fixOutput
      simp only
      cases hmine : w.isMine o.1 with
      | false => rfl
      | true =>
        rw [h o.2 (ownOut_iff.mpr ⟨o, hl o List.mem_cons_self, rfl, hmine⟩)]
        cases txindex.hasSpent o.2 <;> rfl
    rw [List.foldl_cons, hround]
    exact ih fun o' ho' => hl o' (List.mem_cons_of_mem o ho')

/-! The wallet. -/

/-- A record before and after the repair. -/
structure Fixed (env : Env) (txdb : CTxDB) (w : CWallet) (pcoin pcoin' : CWalletTx) : Prop where
  tx : pcoin'.tx = pcoin.tx
  unindexed : txdb.readTxIndex (pcoin.tx.getHash env) = none → pcoin' = pcoin
  indexed : ∀ txindex, txdb.readTxIndex (pcoin.tx.getHash env) = some txindex →
    w.Agrees txindex pcoin'

/-- A wallet before and after the repair of the coins with these hashes. -/
structure Repaired (env : Env) (txdb : CTxDB) (keys : List uint256) (w w' : CWallet) : Prop where
  owns : w'.ownsScript = w.ownsScript
  others : ∀ k, k ∉ keys → w'.mapWallet k = w.mapWallet k
  coins : ∀ k ∈ keys, Option.Rel (Fixed env txdb w) (w.mapWallet k) (w'.mapWallet k)

theorem fixOutputs_tx (l : List (CTxOut × Nat)) (s : Mismatches × CWalletTx) :
    (l.foldl (w.fixOutput txindex false) s).2.tx = s.2.tx := by
  induction l generalizing s with
  | nil => rfl
  | cons o l ih => exact (ih _).trans (fixOutput_tx false s.1 o)

/-- After the loop over its outputs a coin agrees with the index. -/
theorem fixOutputs_fixed (m : Mismatches) (hindex : txdb.readTxIndex (pcoin.tx.getHash env) = some txindex) :
    Fixed env txdb w pcoin
      (pcoin.tx.vout.zipIdx.foldl (w.fixOutput txindex false) (m, pcoin)).2 := by
  refine ⟨fixOutputs_tx _ _, fun hnone => ?_, fun txindex' h n hown => ?_⟩
  · rw [hindex] at hnone
    cases hnone
  · rw [hindex] at h
    obtain rfl := Option.some.inj h
    rw [fixOutputs_tx] at hown
    rw [(fixOutputs_isSpent _ (m, pcoin) hown.lt).2, if_pos (ownOut_iff.mp hown)]

/-- One coin of the wallet is repaired, and the others are left alone. -/
theorem fixCoin_repaired (s : Mismatches × CWallet) (hash : uint256) :
    Repaired env txdb [hash] s.2 (fixCoin env txdb false s hash).2 := by
  unfold fixCoin
  cases hcoin : s.2.mapWallet hash with
  | none =>
    refine ⟨rfl, fun _ _ => rfl, fun k hk => ?_⟩
    obtain rfl := List.mem_singleton.mp hk
    rw [hcoin]
    exact .none
  | some pcoin =>
    simp only
    cases hindex : txdb.readTxIndex (pcoin.tx.getHash env) with
    | none =>
      refine ⟨rfl, fun _ _ => rfl, fun k hk => ?_⟩
      obtain rfl := List.mem_singleton.mp hk
      rw [hcoin]
      refine .some ⟨rfl, fun _ => rfl, fun txindex h => ?_⟩
      rw [hindex] at h
      cases h
    | some txindex =>
      refine ⟨rfl, fun k hk => ?_, fun k hk => ?_⟩
      · exact Function.update_of_ne (fun h => hk (List.mem_singleton.mpr h)) _ _
      · obtain rfl := List.mem_singleton.mp hk
        have hself : ∀ wtx, (s.2.record k wtx).mapWallet k = some wtx :=
          fun wtx => Function.update_self _ _ _
        rw [hcoin, hself]
        exact .some (fixOutputs_fixed s.1 hindex)

theorem Agrees.of_owns {w' : CWallet} (howns : w'.ownsScript = w.ownsScript)
    (h : w.Agrees txindex pcoin) : w'.Agrees txindex pcoin := by
  intro n hown
  refine h n ?_
  obtain ⟨txout, hout, hmine⟩ := hown
  rw [isMine, howns] at hmine
  exact ⟨txout, hout, hmine⟩

theorem Fixed.of_owns {w' : CWallet} {pcoin' : CWalletTx} (howns : w'.ownsScript = w.ownsScript)
    (h : Fixed env txdb w pcoin pcoin') : Fixed env txdb w' pcoin pcoin' :=
  ⟨h.tx, h.unindexed, fun txindex hindex => (h.indexed txindex hindex).of_owns howns⟩

theorem fixSpentCoins_repaired {keys : List uint256} (hkeys : keys.Nodup) (s : Mismatches × CWallet) :
    Repaired env txdb keys s.2 (keys.foldl (fixCoin env txdb false) s).2 := by
  induction keys generalizing s with
  | nil =>
    refine ⟨rfl, fun _ _ => rfl, fun k hk => ?_⟩
    cases hk
  | cons hash keys ih =>
    obtain ⟨hhash, hkeys⟩ := List.nodup_cons.mp hkeys
    have hfirst : Repaired env txdb [hash] s.2 (fixCoin env txdb false s hash).2 :=
      fixCoin_repaired s hash
    have hrest := ih hkeys (fixCoin env txdb false s hash)
    rw [List.foldl_cons]
    refine ⟨hrest.owns.trans hfirst.owns, fun k hk => ?_, fun k hk => ?_⟩
    · rw [List.mem_cons, not_or] at hk
      rw [hrest.others k hk.2, hfirst.others k fun h => hk.1 (List.mem_singleton.mp h)]
    · rcases List.mem_cons.mp hk with rfl | hk
      · rw [hrest.others k hhash]
        exact hfirst.coins k (List.mem_singleton_self k)
      · have hne : k ∉ [hash] := fun h => hhash (List.mem_singleton.mp h ▸ hk)
        have hcoin := hrest.coins k hk
        rw [hfirst.others k hne] at hcoin
        revert hcoin
        generalize s.2.mapWallet k = before, (keys.foldl (fixCoin env txdb false)
          (fixCoin env txdb false s hash)).2.mapWallet k = after
        intro hcoin
        cases hcoin with
        | some hfixed => exact .some (hfixed.of_owns hfirst.owns.symm)
        | none => exact .none

/-- Nothing is found in a wallet whose coins agree with the index. -/
theorem fixSpentCoins_agrees {keys : List uint256} {fCheckOnly : Bool} (h : ∀ k ∈ keys, ∀ pcoin txindex,
    w.mapWallet k = some pcoin → txdb.readTxIndex (pcoin.tx.getHash env) = some txindex →
      w.Agrees txindex pcoin) (m : Mismatches) :
    (keys.foldl (fixCoin env txdb fCheckOnly) (m, w)) = (m, w) := by
  induction keys with
  | nil => rfl
  | cons hash keys ih =>
    have hround : fixCoin env txdb fCheckOnly (m, w) hash = (m, w) := by
      unfold fixCoin
      simp only
      cases hcoin : w.mapWallet hash with
      | none => rfl
      | some pcoin =>
        simp only
        cases hindex : txdb.readTxIndex (pcoin.tx.getHash env) with
        | none => rfl
        | some txindex =>
          have hself : w.record hash pcoin = w := by
            rw [record, ← hcoin, Function.update_eq_self]
          simp only [fixOutputs_agrees fCheckOnly m (h hash List.mem_cons_self pcoin txindex hcoin hindex),
            hself]
    rw [List.foldl_cons, hround]
    exact ih fun k hk => h k (List.mem_cons_of_mem hash hk)

/-! The call. -/

/-- A recorded transaction that is not in the index spends the outpoint. -/
def SpentPending (env : Env) (txdb : CTxDB) (w : CWallet) (o : COutPoint) : Prop :=
  ∃ k wtx, w.mapWallet k = some wtx ∧ txdb.readTxIndex (wtx.tx.getHash env) = none ∧
    wtx.tx.SpendsOut o

/-- The flags of a record after the call are those of the index where there is one. -/
theorem flag_repaired {keys : List uint256} {w' : CWallet} (h : Repaired env txdb keys w w')
    {k : uint256} {n : Nat} (hk : k ∈ keys) (hcoin : w.mapWallet k = some pcoin)
    (hown : w.OwnOut pcoin.tx n) :
    w'.flag k n = match txdb.readTxIndex (pcoin.tx.getHash env) with
      | none => w.flag k n
      | some txindex => txindex.hasSpent n := by
  have hrel := h.coins k hk
  rw [hcoin] at hrel
  cases hcoin' : w'.mapWallet k with
  | none =>
    rw [hcoin'] at hrel
    cases hrel
  | some pcoin' =>
    rw [hcoin'] at hrel
    cases hrel with
    | some hfixed =>
      cases hindex : txdb.readTxIndex (pcoin.tx.getHash env) with
      | none =>
        rw [flag, flag, hcoin, hcoin', hfixed.unindexed hindex]
      | some txindex =>
        rw [flag, hcoin']
        exact hfixed.indexed txindex hindex n (hfixed.tx.symm ▸ hown)

/-- A second call finds nothing, and the first one has not offered an output that a pending
transaction spends, exactly when the index knows of a spend of each such output that is flagged. -/
theorem fixSpentCoins_safe_iff {keys : List uint256} (hkeys : keys.Nodup)
    (hmem : ∀ k, (w.mapWallet k).isSome = true → k ∈ keys) :
    ((∀ fCheckOnly, (fixSpentCoins env txdb (fixSpentCoins env txdb w keys false).2 keys
        fCheckOnly).1.nMismatchFound = 0) ∧
      ∀ k (n : UInt32), w.Own k n.toNat → w.SpentPending env txdb ⟨k, n⟩ → w.flag k n.toNat = true →
        (fixSpentCoins env txdb w keys false).2.flag k n.toNat = true) ↔
    ∀ k (n : UInt32) pcoin txindex, w.mapWallet k = some pcoin → w.OwnOut pcoin.tx n.toNat →
      w.SpentPending env txdb ⟨k, n⟩ → pcoin.isSpent n.toNat = true →
        txdb.readTxIndex (pcoin.tx.getHash env) = some txindex → txindex.hasSpent n.toNat = true := by
  have hfixed : Repaired env txdb keys w (fixSpentCoins env txdb w keys false).2 :=
    fixSpentCoins_repaired hkeys ({}, w)
  have hkey : ∀ {k pcoin}, w.mapWallet k = some pcoin → k ∈ keys := fun {k _} h =>
    hmem k (by rw [h]; rfl)
  have hflag : ∀ {k pcoin} {n : Nat}, w.mapWallet k = some pcoin → w.flag k n = pcoin.isSpent n :=
    fun h => by rw [flag, h]; rfl
  have hsecond : ∀ fCheckOnly, (fixSpentCoins env txdb (fixSpentCoins env txdb w keys false).2 keys
      fCheckOnly).1.nMismatchFound = 0 := by
    intro fCheckOnly
    rw [fixSpentCoins, fixSpentCoins_agrees]
    intro k hk pcoin' txindex hcoin' hindex
    have hrel := hfixed.coins k hk
    rw [hcoin'] at hrel
    cases hcoin : w.mapWallet k with
    | none =>
      rw [hcoin] at hrel
      cases hrel
    | some pcoin =>
      rw [hcoin] at hrel
      cases hrel with
      | some hfixed' =>
        exact (hfixed'.indexed txindex (hfixed'.tx ▸ hindex)).of_owns hfixed.owns
  constructor
  · rintro ⟨-, hsafe⟩ k n pcoin txindex hcoin hown hpending hspent hindex
    have hafter := hsafe k n ⟨pcoin.tx, by rw [txAt, hcoin]; rfl, hown⟩ hpending
      ((hflag hcoin).trans hspent)
    rw [flag_repaired hfixed (hkey hcoin) hcoin hown, hindex] at hafter
    exact hafter
  · refine fun hclear => ⟨hsecond, fun k n hown hpending hspent => ?_⟩
    obtain ⟨tx, htx, hown⟩ := hown
    obtain ⟨pcoin, hcoin, rfl⟩ := Option.map_eq_some_iff.mp htx
    rw [flag_repaired hfixed (hkey hcoin) hcoin hown]
    cases hindex : txdb.readTxIndex (pcoin.tx.getHash env) with
    | none => exact hspent
    | some txindex =>
      exact hclear k n pcoin txindex hcoin hown hpending ((hflag hcoin).symm.trans hspent) hindex

end CWallet

namespace Sample

def coin : CWalletTx where
  tx := { nTime := 5, vin := [], vout := [⟨100, [0x51]⟩] }
  vfSpent := [true]

def pendingPayment : CWalletTx where
  tx := { nTime := 6, vin := [⟨⟨5, 0⟩, [], 0⟩], vout := [⟨90, [0x52]⟩] }

def payingWallet : CWallet where
  ownsScript script := script == [0x51]
  mapWallet hash := if hash = 5 then some coin else if hash = 6 then some pendingPayment else none

def coinDb (spent : CDiskTxPos) : CTxDB where
  committed
    | .tx hash => if hash = 5 then some ⟨⟨1, 0, 0, by decide⟩, [spent]⟩ else none
    | _ => none
  batch := none

end Sample

namespace CWallet

theorem payingWallet_keys (k : uint256) (h : (Sample.payingWallet.mapWallet k).isSome = true) :
    k ∈ [5, 6] := by
  by_contra hk
  simp only [List.mem_cons, List.not_mem_nil, or_false, not_or] at hk
  simp only [Sample.payingWallet, if_neg hk.1, if_neg hk.2] at h
  cases h

theorem payingWallet_safe_iff :
    ((∀ fCheckOnly, (fixSpentCoins Sample.spendEnv (Sample.coinDb .null)
        (fixSpentCoins Sample.spendEnv (Sample.coinDb .null) Sample.payingWallet [5, 6] false).2 [5, 6]
        fCheckOnly).1.nMismatchFound = 0) ∧
      ∀ k (n : UInt32), Sample.payingWallet.Own k n.toNat →
        Sample.payingWallet.SpentPending Sample.spendEnv (Sample.coinDb .null) ⟨k, n⟩ →
        Sample.payingWallet.flag k n.toNat = true →
        (fixSpentCoins Sample.spendEnv (Sample.coinDb .null) Sample.payingWallet [5, 6] false).2.flag k
          n.toNat = true) ↔
    ∀ k (n : UInt32) pcoin txindex, Sample.payingWallet.mapWallet k = some pcoin →
      Sample.payingWallet.OwnOut pcoin.tx n.toNat →
      Sample.payingWallet.SpentPending Sample.spendEnv (Sample.coinDb .null) ⟨k, n⟩ →
        pcoin.isSpent n.toNat = true →
        (Sample.coinDb .null).readTxIndex (pcoin.tx.getHash Sample.spendEnv) = some txindex →
          txindex.hasSpent n.toNat = true :=
  fixSpentCoins_safe_iff (by decide) payingWallet_keys

/-- The coin of a payment that is under way is offered again. -/
theorem payingWallet_offers :
    Sample.payingWallet.SpentPending Sample.spendEnv (Sample.coinDb .null) ⟨5, 0⟩ ∧
      Sample.payingWallet.Own 5 0 ∧ Sample.payingWallet.flag 5 0 = true ∧
      (fixSpentCoins Sample.spendEnv (Sample.coinDb .null) Sample.payingWallet [5, 6] false).2.flag 5 0 =
        false :=
  ⟨⟨6, Sample.pendingPayment, rfl, rfl, _, List.mem_singleton_self _, rfl⟩, ⟨Sample.coin.tx, rfl, _, rfl, rfl⟩,
    rfl, rfl⟩

end CWallet

end Triangles
