import Triangles.Lib.Trace
import Triangles.Model.WalletCalls
import Triangles.Proofs.Undo

/-! When the spent flags of a wallet tell the truth: the exact condition on every call, and
what it means for the coins the wallet offers. -/

namespace Triangles

open Trace

/-- Some input of the transaction spends the outpoint. -/
def CTransaction.SpendsOut (tx : CTransaction) (o : COutPoint) : Prop :=
  ∃ txin ∈ tx.vin, txin.prevout = o

instance (tx : CTransaction) (o : COutPoint) : Decidable (tx.SpendsOut o) :=
  inferInstanceAs (Decidable (∃ txin ∈ tx.vin, txin.prevout = o))

namespace CWallet

/-! A wallet seen as its transactions and the set of outputs flagged as spent. -/

def txAt (w : CWallet) (k : uint256) : Option CTransaction := (w.mapWallet k).map CWalletTx.tx

def flag (w : CWallet) (k : uint256) (n : Nat) : Bool :=
  ((w.mapWallet k).map (·.isSpent n)).getD false

/-- Output `n` of the transaction is ours. -/
def OwnOut (w : CWallet) (tx : CTransaction) (n : Nat) : Prop :=
  ∃ txout, tx.vout[n]? = some txout ∧ w.isMine txout = true

/-- Output `n` of the transaction recorded under `k` is ours. -/
def Own (w : CWallet) (k : uint256) (n : Nat) : Prop := ∃ tx, w.txAt k = some tx ∧ w.OwnOut tx n

/-- A recorded transaction, confirmed or not, spends the outpoint. -/
def Spends (w : CWallet) (o : COutPoint) : Prop := ∃ k tx, w.txAt k = some tx ∧ tx.SpendsOut o

/-- Whatever own output a recorded transaction spends is flagged. -/
def FlagsRight (w : CWallet) : Prop :=
  ∀ k (n : UInt32), w.Own k n.toNat → w.Spends ⟨k, n⟩ → w.flag k n.toNat = true

/-- Records stand under the hash of their transaction. -/
def Keyed (env : Env) (w : CWallet) : Prop := ∀ k tx, w.txAt k = some tx → tx.getHash env = k

theorem OwnOut.lt {w : CWallet} {tx : CTransaction} {n : Nat} (h : w.OwnOut tx n) :
    n < tx.vout.length := by
  obtain ⟨txout, ho, _⟩ := h
  exact (List.getElem?_eq_some_iff.mp ho).1

end CWallet

namespace CWalletTx

theorem resized_getD {wtx : CWalletTx} {n : Nat} (h : n < wtx.tx.vout.length) :
    wtx.resized.getD n false = wtx.isSpent n := by
  unfold resized isSpent
  rw [List.getD_eq_getElem?_getD, List.getD_eq_getElem?_getD, List.getElem?_take_of_lt h]
  by_cases hn : n < wtx.vfSpent.length
  · rw [List.getElem?_append_left hn]
  · rw [List.getElem?_append_right (by omega), List.getElem?_replicate,
      List.getElem?_eq_none (l := wtx.vfSpent) (by omega)]
    split <;> rfl

theorem resized_length (wtx : CWalletTx) : wtx.resized.length = wtx.tx.vout.length := by
  simp [resized]

theorem markSpent_isSpent {wtx : CWalletTx} {i n : Nat} (h : n < wtx.tx.vout.length) :
    (wtx.markSpent i).isSpent n = (wtx.isSpent n || decide (i = n)) := by
  have hset : (wtx.markSpent i).isSpent n = (wtx.resized.set i true).getD n false := rfl
  rw [hset]
  by_cases hi : i = n
  · subst hi
    simp [List.getD_eq_getElem?_getD, resized_length, h]
  · rw [List.getD_eq_getElem?_getD, List.getElem?_set_ne hi, ← List.getD_eq_getElem?_getD,
      resized_getD h, decide_eq_false hi, Bool.or_false]

theorem markUnspent_isSpent {wtx : CWalletTx} {i n : Nat} (h : n < wtx.tx.vout.length) :
    (wtx.markUnspent i).isSpent n = (wtx.isSpent n && !decide (i = n)) := by
  have hset : (wtx.markUnspent i).isSpent n = (wtx.resized.set i false).getD n false := rfl
  rw [hset]
  by_cases hi : i = n
  · subst hi
    simp [List.getD_eq_getElem?_getD, resized_length, h]
  · rw [List.getD_eq_getElem?_getD, List.getElem?_set_ne hi, ← List.getD_eq_getElem?_getD,
      resized_getD h, decide_eq_false hi, Bool.not_false, Bool.and_true]

theorem updateSpent_isSpent {wtx : CWalletTx} {vf : List Bool} {n : Nat}
    (h : wtx.isSpent n = true) : (wtx.updateSpent vf).isSpent n = true := by
  unfold isSpent at h
  rw [List.getD_eq_getElem?_getD] at h
  unfold updateSpent isSpent
  simp only [List.getD_eq_getElem?_getD, List.getElem?_map, List.getElem?_zipIdx]
  cases hn : wtx.vfSpent[n]? with
  | none => simp [hn] at h
  | some f =>
    rw [hn, Option.getD_some] at h
    simp [h]

theorem merge_isSpent {wtx wtxIn : CWalletTx} {n : Nat} (h : wtx.isSpent n = true) :
    (wtx.merge wtxIn).isSpent n = true := by
  unfold merge
  simp only
  split <;> split <;> exact updateSpent_isSpent h

end CWalletTx

namespace CWallet

/-- The same transactions and keys; only flags may differ. -/
structure SameTxs (w w' : CWallet) : Prop where
  txAt : ∀ k, w'.txAt k = w.txAt k
  keys : w'.ownsScript = w.ownsScript

namespace SameTxs

theorem refl (w : CWallet) : SameTxs w w := ⟨fun _ => rfl, rfl⟩

theorem trans {w₁ w₂ w₃ : CWallet} (h : SameTxs w₁ w₂) (h' : SameTxs w₂ w₃) : SameTxs w₁ w₃ :=
  ⟨fun k => (h'.txAt k).trans (h.txAt k), h'.keys.trans h.keys⟩

variable {w w' : CWallet} (h : SameTxs w w')
include h

theorem ownOut (tx : CTransaction) (n : Nat) : w'.OwnOut tx n ↔ w.OwnOut tx n := by
  simp only [OwnOut, isMine, h.keys]

theorem own (k : uint256) (n : Nat) : w'.Own k n ↔ w.Own k n := by
  simp only [Own, h.txAt, h.ownOut]

theorem spends (o : COutPoint) : w'.Spends o ↔ w.Spends o := by
  simp only [Spends, h.txAt]

theorem keyed {env : Env} (hk : w.Keyed env) : w'.Keyed env := by
  intro k tx ht
  exact hk k tx (by rwa [← h.txAt])

end SameTxs

theorem update_sameTxs (w : CWallet) (hash : uint256) {f : CWalletTx → CWalletTx}
    (hf : ∀ wtx, (f wtx).tx = wtx.tx) : SameTxs w (w.update hash f) := by
  refine ⟨fun k => ?_, rfl⟩
  unfold txAt update
  by_cases hk : k = hash
  · subst hk
    simp only [Function.update_self, Option.map_map]
    congr 1
    funext wtx
    exact hf wtx
  · simp only [Function.update_of_ne hk]

theorem update_flag_ne {w : CWallet} {hash k : uint256} {f : CWalletTx → CWalletTx} (n : Nat)
    (hk : k ≠ hash) : (w.update hash f).flag k n = w.flag k n := by
  simp only [flag, update, Function.update_of_ne hk]

/-- Change of a flag where the record is known to have the output. -/
theorem update_flag_self {w : CWallet} {k : uint256} {n : Nat} {f : CWalletTx → CWalletTx}
    {g : Bool → Bool} (hown : w.Own k n)
    (hf : ∀ wtx : CWalletTx, n < wtx.tx.vout.length → (f wtx).isSpent n = g (wtx.isSpent n)) :
    (w.update k f).flag k n = g (w.flag k n) := by
  obtain ⟨tx, ht, ho⟩ := hown
  obtain ⟨wtx, hw, rfl⟩ := Option.map_eq_some_iff.mp ht
  simp only [flag, update, Function.update_self, hw, Option.map_some, Option.getD_some]
  exact hf wtx (OwnOut.lt ho)

theorem ownPrevout_isSome {w : CWallet} {txin : CTxIn} :
    (w.ownPrevout txin).isSome = true ↔ w.Own txin.prevout.hash txin.prevout.n.toNat := by
  unfold ownPrevout Own OwnOut txAt
  cases hw : w.mapWallet txin.prevout.hash with
  | none => simp
  | some wtx =>
    simp only [Option.map_some, Option.some.injEq, exists_eq_left']
    cases ho : wtx.tx.vout[txin.prevout.n.toNat]? with
    | none => simp
    | some txout => by_cases hm : w.isMine txout = true <;> simp [hm]

theorem spendPrevout_sameTxs (w : CWallet) (txin : CTxIn) : SameTxs w (w.spendPrevout txin) := by
  unfold spendPrevout
  simp only
  split
  · exact .refl w
  · split
    · exact update_sameTxs w _ fun _ => rfl
    · exact .refl w

/-- An input of a transaction flags the own output it spends, and no other. -/
theorem spendPrevout_flag {w : CWallet} {txin : CTxIn} {k : uint256} {n : Nat} (hown : w.Own k n) :
    (w.spendPrevout txin).flag k n = true ↔
      w.flag k n = true ∨ txin.prevout.hash = k ∧ txin.prevout.n.toNat = n := by
  by_cases hk : txin.prevout.hash = k
  · subst hk
    obtain ⟨tx, ht, -⟩ := id hown
    obtain ⟨wtx, hw, rfl⟩ := Option.map_eq_some_iff.mp ht
    have hflag : ∀ i, w.flag txin.prevout.hash i = wtx.isSpent i := by
      intro i
      simp [flag, hw]
    unfold spendPrevout
    simp only [hw]
    split
    · rename_i hc
      rw [update_flag_self (g := fun b => b || decide (txin.prevout.n.toNat = n)) hown
        fun wtx hn => wtx.markSpent_isSpent hn]
      simp
    · rename_i hc
      constructor
      · exact Or.inl
      · rintro (h | ⟨-, rfl⟩)
        · exact h
        · rw [Bool.and_eq_true, ownPrevout_isSome] at hc
          by_contra hne
          refine hc ⟨?_, hown⟩
          rw [← hflag, Bool.eq_false_iff.mpr hne]
          rfl
  · have hsame : (w.spendPrevout txin).flag k n = w.flag k n := by
      unfold spendPrevout
      simp only
      split
      · rfl
      · split
        · exact update_flag_ne n fun h => hk h.symm
        · rfl
    simp [hsame, hk]

theorem spendAll_sameTxs (l : List CTxIn) (w : CWallet) :
    SameTxs w (l.foldl spendPrevout w) := by
  induction l generalizing w with
  | nil => exact .refl w
  | cons txin l ih => exact (spendPrevout_sameTxs w txin).trans (ih _)

theorem spendAll_flag {l : List CTxIn} {w : CWallet} {k : uint256} {n : Nat} (hown : w.Own k n) :
    (l.foldl spendPrevout w).flag k n = true ↔
      w.flag k n = true ∨ ∃ txin ∈ l, txin.prevout.hash = k ∧ txin.prevout.n.toNat = n := by
  induction l generalizing w with
  | nil => simp
  | cons txin l ih =>
    have hown' := ((spendPrevout_sameTxs w txin).own k n).mpr hown
    rw [List.foldl_cons, ih hown', spendPrevout_flag hown, or_assoc]
    simp

/-- The loop of `WalletUpdateSpent` over the outputs of a transaction found in a block. -/
def unspendOwn (hash : uint256) (l : List (CTxOut × Nat)) (w : CWallet) : CWallet :=
  l.foldl (fun w (txout, i) =>
    if w.isMine txout then w.update hash (·.markUnspent i) else w) w

theorem unspendOwn_cons (hash : uint256) (txout : CTxOut) (i : Nat) (l : List (CTxOut × Nat))
    (w : CWallet) : unspendOwn hash ((txout, i) :: l) w =
      unspendOwn hash l (if w.isMine txout then w.update hash (·.markUnspent i) else w) := rfl

theorem walletUpdateSpent_eq (env : Env) (w : CWallet) (tx : CTransaction) (fBlock : Bool) :
    w.walletUpdateSpent env tx fBlock =
      if fBlock then unspendOwn (tx.getHash env) tx.vout.zipIdx (tx.vin.foldl spendPrevout w)
      else tx.vin.foldl spendPrevout w := rfl

theorem unspendOwn_sameTxs (hash : uint256) (l : List (CTxOut × Nat)) (w : CWallet) :
    SameTxs w (unspendOwn hash l w) := by
  induction l generalizing w with
  | nil => exact .refl w
  | cons x l ih =>
    obtain ⟨txout, i⟩ := x
    rw [unspendOwn_cons]
    refine SameTxs.trans ?_ (ih _)
    split
    · exact update_sameTxs w hash fun _ => rfl
    · exact .refl w

theorem unspendOwn_flag_ne {hash k : uint256} (l : List (CTxOut × Nat)) (w : CWallet) (n : Nat)
    (hk : k ≠ hash) : (unspendOwn hash l w).flag k n = w.flag k n := by
  induction l generalizing w with
  | nil => rfl
  | cons x l ih =>
    obtain ⟨txout, i⟩ := x
    rw [unspendOwn_cons, ih]
    split
    · exact update_flag_ne n hk
    · rfl

/-- The flag of an own output is cleared when the loop comes to it, and never set. -/
theorem unspendOwn_flag_self {k : uint256} {l : List (CTxOut × Nat)} {w : CWallet} {n : Nat}
    (hown : w.Own k n) : (unspendOwn k l w).flag k n = true ↔
      w.flag k n = true ∧ ∀ x ∈ l, w.isMine x.1 = true → x.2 ≠ n := by
  induction l generalizing w with
  | nil => simp [unspendOwn]
  | cons x l ih =>
    obtain ⟨txout, i⟩ := x
    rw [unspendOwn_cons]
    split
    · rename_i hm
      have hsame : SameTxs w (w.update k (·.markUnspent i)) := update_sameTxs w k fun _ => rfl
      have hkeys : w.ownsScript txout.scriptPubKey = true := hm
      rw [ih ((hsame.own k n).mpr hown),
        update_flag_self (g := fun b => b && !decide (i = n)) hown
          fun wtx hn => wtx.markUnspent_isSpent hn]
      simp only [Bool.and_eq_true, Bool.not_eq_true', decide_eq_false_iff_not, List.forall_mem_cons,
        isMine, hsame.keys, hkeys, forall_const, and_assoc, ne_eq]
    · rename_i hm
      rw [ih hown]
      simp [hm]

theorem walletUpdateSpent_sameTxs (env : Env) (w : CWallet) (tx : CTransaction) (fBlock : Bool) :
    SameTxs w (w.walletUpdateSpent env tx fBlock) := by
  rw [walletUpdateSpent_eq]
  split
  · exact (spendAll_sameTxs _ w).trans (unspendOwn_sameTxs _ _ _)
  · exact spendAll_sameTxs _ w

theorem spendsOut_iff {tx : CTransaction} {k : uint256} {n : UInt32} : tx.SpendsOut ⟨k, n⟩ ↔
    ∃ txin ∈ tx.vin, txin.prevout.hash = k ∧ txin.prevout.n.toNat = n.toNat := by
  unfold CTransaction.SpendsOut
  constructor
  · rintro ⟨txin, hm, ho⟩
    exact ⟨txin, hm, by rw [ho], by rw [ho]⟩
  · rintro ⟨txin, hm, rfl, hn⟩
    refine ⟨txin, hm, ?_⟩
    rw [← UInt32.toNat_inj.mp hn]

/-- What `WalletUpdateSpent` does to the flag of an own output: the inputs of the transaction
set it, and a block that holds the transaction clears its own outputs, spent or not. -/
theorem walletUpdateSpent_flag {env : Env} {w : CWallet} {tx : CTransaction} {fBlock : Bool}
    {k : uint256} {n : UInt32} (hown : w.Own k n.toNat)
    (htx : fBlock = true → w.txAt (tx.getHash env) = some tx) :
    (w.walletUpdateSpent env tx fBlock).flag k n.toNat = true ↔
      (w.flag k n.toNat = true ∨ tx.SpendsOut ⟨k, n⟩) ∧ ¬(fBlock = true ∧ tx.getHash env = k) := by
  rw [walletUpdateSpent_eq, spendsOut_iff, ← spendAll_flag hown]
  have hsame := spendAll_sameTxs tx.vin w
  cases fBlock with
  | false => simp
  | true =>
    rw [if_pos rfl]
    by_cases hk : tx.getHash env = k
    · -- the output is one of those the loop goes through
      obtain ⟨tx', ht', txout, ho, hm⟩ := id hown
      obtain rfl : tx = tx' := by
        rw [← hk, htx rfl] at ht'
        exact Option.some.inj ht'
      have hmem : (txout, n.toNat) ∈ tx.vout.zipIdx := by
        rw [List.mem_zipIdx_iff_getElem?]
        exact ho
      rw [hk, unspendOwn_flag_self ((hsame.own k _).mpr hown)]
      simp only [true_and, not_true_eq_false, and_false, iff_false, not_and, not_forall]
      intro _
      exact ⟨(txout, n.toNat), hmem, by rwa [isMine, hsame.keys], fun h => h rfl⟩
    · rw [unspendOwn_flag_ne _ _ _ fun h => hk h.symm]
      simp [hk]

/-- Flags that only grow stay right. -/
theorem FlagsRight.grow {w w' : CWallet} (hr : w.FlagsRight) (hs : SameTxs w w')
    (hg : ∀ k (n : UInt32), w.Own k n.toNat → w.flag k n.toNat = true → w'.flag k n.toNat = true) :
    w'.FlagsRight := by
  intro k n ho hsp
  have ho := (hs.own k _).mp ho
  exact hg k n ho (hr k n ho ((hs.spends _).mp hsp))

/-! What recording a transaction does, before the inputs are looked at. -/

section Record

variable {w : CWallet} {hash : uint256} {wtx wtxIn : CWalletTx}

theorem record_txAt (k : uint256) :
    (w.record hash wtx).txAt k = if k = hash then some wtx.tx else w.txAt k := by
  unfold txAt record
  by_cases hk : k = hash
  · simp [hk]
  · simp [hk]

theorem record_flag (k : uint256) (n : Nat) :
    (w.record hash wtx).flag k n = if k = hash then wtx.isSpent n else w.flag k n := by
  unfold flag record
  by_cases hk : k = hash
  · simp [hk]
  · simp [hk]

theorem record_ownOut (tx : CTransaction) (n : Nat) :
    (w.record hash wtx).OwnOut tx n ↔ w.OwnOut tx n := Iff.rfl

theorem record_own_self (n : Nat) : (w.record hash wtx).Own hash n ↔ w.OwnOut wtx.tx n := by
  simp [Own, record_txAt, record_ownOut]

theorem record_own_ne {k : uint256} (n : Nat) (hk : k ≠ hash) :
    (w.record hash wtx).Own k n ↔ w.Own k n := by
  simp [Own, record_txAt, record_ownOut, hk]

theorem record_spends (hnew : w.mapWallet hash = none) (o : COutPoint) :
    (w.record hash wtx).Spends o ↔ w.Spends o ∨ wtx.tx.SpendsOut o := by
  unfold Spends
  constructor
  · rintro ⟨k, tx, ht, hs⟩
    rw [record_txAt] at ht
    split at ht
    · cases ht
      exact .inr hs
    · exact .inl ⟨k, tx, ht, hs⟩
  · rintro (⟨k, tx, ht, hs⟩ | hs)
    · have hk : k ≠ hash := by
        rintro rfl
        simp [txAt, hnew] at ht
      exact ⟨k, tx, by rw [record_txAt, if_neg hk, ht], hs⟩
    · exact ⟨hash, wtx.tx, by rw [record_txAt, if_pos rfl], hs⟩

theorem merged_sameTxs (h : w.mapWallet hash = some wtx) :
    SameTxs w (w.record hash (wtx.merge wtxIn)) := by
  refine ⟨fun k => ?_, rfl⟩
  rw [record_txAt, merge_tx]
  split
  · rename_i hk
    simp [txAt, hk, h]
  · rfl

theorem merged_flag (h : w.mapWallet hash = some wtx) (k : uint256) (n : Nat)
    (hf : w.flag k n = true) : (w.record hash (wtx.merge wtxIn)).flag k n = true := by
  rw [record_flag]
  split
  · rename_i hk
    subst hk
    exact CWalletTx.merge_isSpent (by simpa [flag, h] using hf)
  · exact hf

end Record

/-- The calls of `AddToWallet` after which the flags are right. A transaction seen in a block
must have no own output that a recorded transaction spends; a new loose one must come with
the flags of those that are; and a new one that is not written must not spend an own output. -/
def Harmless (env : Env) (w : CWallet) (wtxIn : CWalletTx) (fWritten : Bool) : Prop :=
  let hash := wtxIn.tx.getHash env
  match w.mapWallet hash with
  | some wtx => wtxIn.hashBlock ≠ 0 → (wtx.updatedBy wtxIn = true → fWritten = true) →
      ∀ n : UInt32, w.OwnOut wtx.tx n.toNat → ¬w.Spends ⟨hash, n⟩
  | none =>
    (∀ n : UInt32, w.OwnOut wtxIn.tx n.toNat →
      w.Spends ⟨hash, n⟩ ∨ wtxIn.tx.SpendsOut ⟨hash, n⟩ →
      if fWritten then
        wtxIn.hashBlock = 0 ∧ (wtxIn.isSpent n.toNat = true ∨ wtxIn.tx.SpendsOut ⟨hash, n⟩)
      else wtxIn.isSpent n.toNat = true) ∧
    (fWritten = false → ∀ k (n : UInt32), w.Own k n.toNat → wtxIn.tx.SpendsOut ⟨k, n⟩ →
      w.flag k n.toNat = true)

section Step

variable {env : Env} {w : CWallet} {wtxIn : CWalletTx}

/-- A new transaction, with `fBlock` and its inputs looked at. -/
theorem insert_flagsRight (hr : w.FlagsRight) (hnew : w.mapWallet (wtxIn.tx.getHash env) = none)
    (fBlock : Bool) :
    ((w.record (wtxIn.tx.getHash env) wtxIn).walletUpdateSpent env wtxIn.tx fBlock).FlagsRight ↔
      ∀ n : UInt32, w.OwnOut wtxIn.tx n.toNat →
        w.Spends ⟨wtxIn.tx.getHash env, n⟩ ∨ wtxIn.tx.SpendsOut ⟨wtxIn.tx.getHash env, n⟩ →
        fBlock = false ∧ (wtxIn.isSpent n.toNat = true ∨
          wtxIn.tx.SpendsOut ⟨wtxIn.tx.getHash env, n⟩) := by
  have hsame := walletUpdateSpent_sameTxs env (w.record (wtxIn.tx.getHash env) wtxIn) wtxIn.tx
    fBlock
  have htx : fBlock = true →
      (w.record (wtxIn.tx.getHash env) wtxIn).txAt (wtxIn.tx.getHash env) = some wtxIn.tx := by
    intro _
    rw [record_txAt, if_pos rfl]
  constructor
  · intro h n ho hs
    have hown : (w.record (wtxIn.tx.getHash env) wtxIn).Own (wtxIn.tx.getHash env) n.toNat :=
      (record_own_self n.toNat).mpr ho
    have hf := h _ n ((hsame.own _ _).mpr hown)
      ((hsame.spends _).mpr ((record_spends hnew _).mpr hs))
    rw [walletUpdateSpent_flag hown htx, record_flag, if_pos rfl] at hf
    simpa [and_comm] using hf
  · intro h k n ho hs
    have ho := (hsame.own _ _).mp ho
    rw [hsame.spends, record_spends hnew] at hs
    rw [walletUpdateSpent_flag ho htx, record_flag]
    by_cases hk : k = wtxIn.tx.getHash env
    · subst hk
      have := h n ((record_own_self n.toNat).mp ho) hs
      simpa [and_comm] using this
    · have ho := (record_own_ne n.toNat hk).mp ho
      refine ⟨?_, fun hc => hk hc.2.symm⟩
      rw [if_neg hk]
      exact hs.imp_left (hr k n ho)

/-- A new transaction whose record could not be written. -/
theorem insert_unwritten_flagsRight (hr : w.FlagsRight)
    (hnew : w.mapWallet (wtxIn.tx.getHash env) = none) :
    (w.record (wtxIn.tx.getHash env) wtxIn).FlagsRight ↔
      (∀ n : UInt32, w.OwnOut wtxIn.tx n.toNat →
        w.Spends ⟨wtxIn.tx.getHash env, n⟩ ∨ wtxIn.tx.SpendsOut ⟨wtxIn.tx.getHash env, n⟩ →
        wtxIn.isSpent n.toNat = true) ∧
      ∀ k (n : UInt32), w.Own k n.toNat → wtxIn.tx.SpendsOut ⟨k, n⟩ →
        w.flag k n.toNat = true := by
  constructor
  · intro h
    constructor
    · intro n ho hs
      have hf := h _ n ((record_own_self n.toNat).mpr ho) ((record_spends hnew _).mpr hs)
      rwa [record_flag, if_pos rfl] at hf
    · intro k n ho hs
      have hk : k ≠ wtxIn.tx.getHash env := by
        rintro rfl
        obtain ⟨tx, ht, _⟩ := ho
        simp [txAt, hnew] at ht
      have hf := h k n ((record_own_ne n.toNat hk).mpr ho) ((record_spends hnew _).mpr (.inr hs))
      rwa [record_flag, if_neg hk] at hf
  · intro h k n ho hs
    rw [record_spends hnew] at hs
    rw [record_flag]
    by_cases hk : k = wtxIn.tx.getHash env
    · subst hk
      rw [if_pos rfl]
      exact h.1 n ((record_own_self n.toNat).mp ho) hs
    · have ho := (record_own_ne n.toNat hk).mp ho
      rw [if_neg hk]
      exact hs.elim (hr k n ho) (h.2 k n ho)

/-- A transaction that is there already, with its inputs looked at again. -/
theorem merge_flagsRight (hr : w.FlagsRight) (hkeyed : w.Keyed env) {wtx : CWalletTx}
    (hold : w.mapWallet (wtxIn.tx.getHash env) = some wtx) (fBlock : Bool) :
    ((w.record (wtxIn.tx.getHash env) (wtx.merge wtxIn)).walletUpdateSpent env wtx.tx
        fBlock).FlagsRight ↔
      (fBlock = true → ∀ n : UInt32, w.OwnOut wtx.tx n.toNat →
        ¬w.Spends ⟨wtxIn.tx.getHash env, n⟩) := by
  have hat : w.txAt (wtxIn.tx.getHash env) = some wtx.tx := by simp [txAt, hold]
  have hhash : wtx.tx.getHash env = wtxIn.tx.getHash env := hkeyed _ _ hat
  have hmerged : SameTxs w (w.record (wtxIn.tx.getHash env) (wtx.merge wtxIn)) :=
    merged_sameTxs hold
  have hsame := hmerged.trans (walletUpdateSpent_sameTxs env
    (w.record (wtxIn.tx.getHash env) (wtx.merge wtxIn)) wtx.tx fBlock)
  have htx : fBlock = true → (w.record (wtxIn.tx.getHash env) (wtx.merge wtxIn)).txAt
      (wtx.tx.getHash env) = some wtx.tx := by
    intro _
    rw [hhash, hmerged.txAt, hat]
  constructor
  · intro h hb n ho hs
    have hown : w.Own (wtxIn.tx.getHash env) n.toNat := ⟨wtx.tx, hat, ho⟩
    have hf := h _ n ((hsame.own _ _).mpr hown) ((hsame.spends _).mpr hs)
    rw [walletUpdateSpent_flag ((hmerged.own _ _).mpr hown) htx] at hf
    exact hf.2 ⟨hb, hhash⟩
  · intro h k n ho hs
    have ho := (hsame.own _ _).mp ho
    have hs := (hsame.spends _).mp hs
    rw [walletUpdateSpent_flag ((hmerged.own _ _).mpr ho) htx]
    refine ⟨.inl (merged_flag hold k _ (hr k n ho hs)), ?_⟩
    rintro ⟨hb, hk⟩
    rw [hhash] at hk
    subst hk
    obtain ⟨tx, ht, hout⟩ := ho
    rw [hat] at ht
    cases ht
    exact h hb n hout hs

/-- One call of `AddToWallet` keeps the flags right exactly when it is harmless. -/
theorem addToWalletWriting_flagsRight (hr : w.FlagsRight) (hkeyed : w.Keyed env)
    (fWritten : Bool) :
    (w.addToWalletWriting env wtxIn fWritten).FlagsRight ↔ w.Harmless env wtxIn fWritten := by
  unfold addToWalletWriting Harmless
  cases hold : w.mapWallet (wtxIn.tx.getHash env) with
  | none =>
    cases fWritten with
    | true =>
      simp only [hold, Bool.not_true, Bool.false_eq_true, ↓reduceIte]
      rw [insert_flagsRight hr hold]
      simp
    | false =>
      simp only [hold, Bool.not_false, ↓reduceIte, Bool.false_eq_true, forall_const]
      rw [insert_unwritten_flagsRight hr hold]
  | some wtx =>
    simp only [hold]
    split
    · rename_i hc
      simp only [Bool.and_eq_true, Bool.not_eq_true'] at hc
      constructor
      · intro _ _ hw
        rw [hw hc.1] at hc
        cases hc.2
      · intro _
        exact hr.grow (merged_sameTxs hold) fun k n _ => merged_flag hold k _
    · rename_i hc
      rw [merge_flagsRight hr hkeyed hold]
      simp only [Bool.and_eq_true, Bool.not_eq_true', not_and, Bool.not_eq_false] at hc
      simp only [decide_eq_true_eq]
      constructor
      · intro h hb _
        exact h hb
      · intro h hb
        exact h hb hc

theorem addToWalletWriting_keyed (hkeyed : w.Keyed env) (fWritten : Bool) :
    (w.addToWalletWriting env wtxIn fWritten).Keyed env := by
  have hrec : ∀ {wtx : CWalletTx}, wtx.tx.getHash env = wtxIn.tx.getHash env →
      (w.record (wtxIn.tx.getHash env) wtx).Keyed env := by
    intro wtx h k tx ht
    rw [record_txAt] at ht
    split at ht
    · rename_i hk
      cases ht
      rw [h, hk]
    · exact hkeyed k tx ht
  unfold addToWalletWriting
  simp only
  split
  · split
    · exact hrec rfl
    · exact (walletUpdateSpent_sameTxs _ _ _ _).keyed (hrec rfl)
  · rename_i wtx hold
    have hhash : (wtx.merge wtxIn).tx.getHash env = wtxIn.tx.getHash env := by
      rw [merge_tx]
      exact hkeyed _ _ (by simp [txAt, hold])
    split
    · exact hrec hhash
    · exact (walletUpdateSpent_sameTxs _ _ _ _).keyed (hrec hhash)

end Step

end CWallet

/-- The calls after which the flags are right, if they were before. -/
def WalletCall.Harmless (env : Env) (w : CWallet) : WalletCall → Prop
  | .addToWallet wtxIn fWritten => w.Harmless env wtxIn fWritten
  | .addToWalletIfInvolvingMe tx pblock fUpdate fWritten =>
    ((w.mapWallet (tx.getHash env)).isSome = true → fUpdate = true) →
    ((w.mapWallet (tx.getHash env)).isSome || w.isMineTx tx || w.isFromMe tx) = true →
      w.Harmless env (CWallet.walletTxOf env tx pblock) fWritten

namespace CWallet

variable {env : Env} {w : CWallet}

/-- `WalletUpdateSpent` for a transaction that is not recorded only sets flags. -/
theorem walletUpdateSpent_grows (hr : w.FlagsRight) (tx : CTransaction) :
    (w.walletUpdateSpent env tx false).FlagsRight := by
  refine hr.grow (walletUpdateSpent_sameTxs env w tx false) ?_
  intro k n ho hf
  rw [walletUpdateSpent_flag ho (by simp)]
  simp [hf]

theorem call_flagsRight (hr : w.FlagsRight) (hkeyed : w.Keyed env) (c : WalletCall) :
    (w.call env c).FlagsRight ↔ c.Harmless env w := by
  cases c with
  | addToWallet wtxIn fWritten => exact addToWalletWriting_flagsRight hr hkeyed fWritten
  | addToWalletIfInvolvingMe tx pblock fUpdate fWritten =>
    simp only [call, WalletCall.Harmless]
    split
    · rename_i hc
      simp only [Bool.and_eq_true, Bool.not_eq_true'] at hc
      constructor
      · intro _ hu
        rw [hu hc.1] at hc
        cases hc.2
      · intro _
        exact hr
    · rename_i hc
      simp only [Bool.and_eq_true, Bool.not_eq_true', not_and, Bool.not_eq_false] at hc
      split
      · rename_i hmine
        rw [addToWalletWriting_flagsRight hr hkeyed]
        exact ⟨fun h _ _ => h, fun h => h hc hmine⟩
      · rename_i hmine
        exact ⟨fun _ _ h => absurd h hmine, fun _ => walletUpdateSpent_grows hr tx⟩

theorem call_keyed (hkeyed : w.Keyed env) (c : WalletCall) : (w.call env c).Keyed env := by
  cases c with
  | addToWallet wtxIn fWritten => exact addToWalletWriting_keyed hkeyed fWritten
  | addToWalletIfInvolvingMe tx pblock fUpdate fWritten =>
    simp only [call]
    split
    · exact hkeyed
    · split
      · exact addToWalletWriting_keyed hkeyed fWritten
      · exact (walletUpdateSpent_sameTxs env w tx false).keyed hkeyed

/-- What `AvailableCoins` offers is recorded, ours and not flagged. -/
theorem mem_availableCoins {view : CoinView} {keys : List uint256} {fOnlyConfirmed : Bool}
    {coinControl : Option (List COutPoint)} {c : COutput}
    (h : c ∈ w.availableCoins view keys fOnlyConfirmed coinControl) :
    w.Own c.hash c.i ∧ w.flag c.hash c.i = false := by
  obtain ⟨k, -, hk⟩ := List.mem_flatMap.mp h
  cases hw : w.mapWallet k with
  | none => simp [hw] at hk
  | some pcoin =>
    simp only [hw, coinsOf] at hk
    -- the guards on the whole record say nothing about its outputs
    iterate 5
      split at hk
      · simp at hk
    obtain ⟨⟨txout, i⟩, hm, hsome⟩ := List.mem_filterMap.mp hk
    simp only [Option.ite_none_right_eq_some, Bool.and_eq_true, Bool.not_eq_true',
      Option.some.injEq] at hsome
    obtain ⟨⟨⟨⟨hspent, hmine⟩, -⟩, -⟩, rfl⟩ := hsome
    refine ⟨⟨pcoin.tx, by simp [txAt, hw], txout, ?_, hmine⟩, by simpa [flag, hw] using hspent⟩
    rwa [List.mem_zipIdx_iff_getElem?] at hm

/-- No coin that `AvailableCoins` offers is spent by a recorded transaction. -/
def OffersUnspent (w : CWallet) : Prop :=
  ∀ view keys fOnlyConfirmed coinControl,
    ∀ c ∈ w.availableCoins view keys fOnlyConfirmed coinControl,
      ∀ n : UInt32, n.toNat = c.i → ¬w.Spends ⟨c.hash, n⟩

theorem FlagsRight.offersUnspent (hr : w.FlagsRight) : w.OffersUnspent := by
  intro view keys fOnlyConfirmed coinControl c hc n hn hs
  obtain ⟨ho, hf⟩ := mem_availableCoins hc
  rw [← hn] at ho hf
  rw [hr c.hash n ho hs] at hf
  cases hf

theorem empty_flagsRight (hempty : ∀ k, w.mapWallet k = none) : w.FlagsRight := by
  intro k n ho
  obtain ⟨tx, ht, _⟩ := ho
  simp [txAt, hempty] at ht

theorem empty_keyed (hempty : ∀ k, w.mapWallet k = none) : w.Keyed env := by
  intro k tx ht
  simp [txAt, hempty] at ht

end CWallet

/-- A wallet that starts empty has right flags, and offers no coin it has spent, in every state
of a run exactly when every call of the run is harmless in the state it meets. -/
theorem spentFlags_right_iff (env : Env) (w : CWallet) (hempty : ∀ k, w.mapWallet k = none)
    (l : List WalletCall) :
    (∀ p, p <+: l → (w.calls env p).FlagsRight ∧ (w.calls env p).OffersUnspent) ↔
      ∀ x ∈ trace (CWallet.call env) w l, x.2.Harmless env x.1 := by
  have hrun := prefixes_iff (g := CWallet.call env) (I := CWallet.FlagsRight)
    (K := CWallet.Keyed env) (l := l) (fun _ c hr hkeyed => CWallet.call_flagsRight hr hkeyed c)
    (fun _ c hkeyed => CWallet.call_keyed hkeyed c) (CWallet.empty_flagsRight hempty)
    (CWallet.empty_keyed hempty)
  rw [← hrun]
  constructor
  · intro h p hp
    exact (h p hp).1
  · intro h p hp
    exact ⟨h p hp, (h p hp).offersUnspent⟩

namespace Sample

def emptyWallet : CWallet where
  ownsScript script := script == opTrue
  mapWallet _ := none

def receipt : CTransaction := transfer 5 [⟨1, 0⟩] [100]

def onward : CTransaction := transfer 6 [⟨5, 0⟩] [90]

def looseCalls : List WalletCall :=
  [.addToWalletIfInvolvingMe receipt none true true,
   .addToWalletIfInvolvingMe onward none true true]

def confirmCall : WalletCall :=
  .addToWalletIfInvolvingMe receipt (some (blockOf 1 7 [coinbase 4 5, receipt])) true true

def everyCoin : CoinView := ⟨fun _ => true, fun _ => true, fun _ => 0, fun _ => 1⟩

def paidWallet : CWallet :=
  emptyWallet.call (env []) (.addToWalletIfInvolvingMe receipt none true true)

theorem emptyWallet_spends (o : COutPoint) : ¬emptyWallet.Spends o := by
  rintro ⟨k, tx, ht, -⟩
  cases ht

theorem paidWallet_spends {o : COutPoint} (h : paidWallet.Spends o) : o = ⟨1, 0⟩ := by
  have hsame := CWallet.walletUpdateSpent_sameTxs (env []) (emptyWallet.record 5 { tx := receipt })
    receipt false
  have h := (CWallet.record_spends rfl o).mp ((hsame.spends o).mp h)
  obtain ⟨txin, hm, rfl⟩ := h.resolve_left (emptyWallet_spends o)
  obtain rfl : txin = { prevout := ⟨1, 0⟩, scriptSig := opTrue } := by
    simpa [receipt, transfer] using hm
  rfl

end Sample

/-- Two loose transactions, one after the other, leave right flags. -/
theorem spentFlags_right_loose :
    (Sample.emptyWallet.calls (Sample.env []) Sample.looseCalls).FlagsRight ∧
      (Sample.emptyWallet.calls (Sample.env []) Sample.looseCalls).OffersUnspent := by
  refine (spentFlags_right_iff (Sample.env []) Sample.emptyWallet (fun _ => rfl)
    Sample.looseCalls).mpr ?_ Sample.looseCalls List.prefix_rfl
  intro x hx
  rcases List.mem_cons.mp hx with rfl | hx
  · intro _ _
    refine ⟨fun n _ hs => ?_, fun h => by cases h⟩
    rcases hs with hs | ⟨txin, hm, ho⟩
    · exact absurd hs (Sample.emptyWallet_spends _)
    · obtain rfl : txin = { prevout := ⟨1, 0⟩, scriptSig := Sample.opTrue } := by
        simpa [Sample.receipt, Sample.transfer, CWallet.walletTxOf] using hm
      simp [CWallet.walletTxOf, CTransaction.getHash, Sample.env, Sample.receipt,
        Sample.transfer] at ho
  · obtain rfl := List.mem_singleton.mp hx
    intro _ _
    refine ⟨fun n _ hs => ?_, fun h => by cases h⟩
    rcases hs with hs | ⟨txin, hm, ho⟩
    · have := Sample.paidWallet_spends hs
      simp [CWallet.walletTxOf, CTransaction.getHash, Sample.env, Sample.onward,
        Sample.transfer] at this
    · obtain rfl : txin = { prevout := ⟨5, 0⟩, scriptSig := Sample.opTrue } := by
        simpa [Sample.onward, Sample.transfer, CWallet.walletTxOf] using hm
      simp [CWallet.walletTxOf, CTransaction.getHash, Sample.env, Sample.onward,
        Sample.transfer] at ho

/-- A coin spent by a loose transaction is offered again once its own transaction confirms. -/
theorem confirmed_coin_offered_again :
    ¬(Sample.emptyWallet.calls (Sample.env [])
        (Sample.looseCalls ++ [Sample.confirmCall])).FlagsRight ∧
      ¬(Sample.emptyWallet.calls (Sample.env [])
        (Sample.looseCalls ++ [Sample.confirmCall])).OffersUnspent := by
  have hspends : (Sample.emptyWallet.calls (Sample.env [])
      (Sample.looseCalls ++ [Sample.confirmCall])).Spends ⟨5, 0⟩ :=
    ⟨6, Sample.onward, by decide, by decide⟩
  constructor
  · intro h
    have hf := h 5 0 ⟨Sample.receipt, by decide, ⟨100, Sample.opTrue⟩, by decide, by decide⟩ hspends
    revert hf
    decide
  · intro h
    have hoffer : ∃ c ∈ (Sample.emptyWallet.calls (Sample.env [])
        (Sample.looseCalls ++ [Sample.confirmCall])).availableCoins Sample.everyCoin [5, 6] true
          none, c.hash = 5 ∧ c.i = 0 := by decide
    obtain ⟨c, hc, hhash, hi⟩ := hoffer
    refine h _ _ _ _ c hc 0 hi.symm ?_
    rw [hhash]
    exact hspends

end Triangles
