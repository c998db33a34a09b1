import Mathlib.Algebra.BigOperators.Group.Finset.Basic
import Triangles.Proofs.Undo

/-! The unspent outputs of an index and what they are worth. -/

namespace Triangles.Ledger

open Outcome Trace

def outValue (env : Env) (V : TxIndexMap) (o : COutPoint) : Int :=
  match V o.hash with
  | none => 0
  | some txindex => (((env.readTx txindex.pos).bind fun tx =>
      tx.vout[o.n.toNat]?).map CTxOut.nValue).getD 0

/-- The unspent outputs are finitely many and are worth `n` together. -/
def Worth (env : Env) (V : TxIndexMap) (n : Int) : Prop :=
  ∃ unspent : Finset COutPoint, (∀ o, o ∈ unspent ↔ IsUnspent V o) ∧
    n = ∑ o ∈ unspent, outValue env V o

def OnlyDisk (V : TxIndexMap) : Prop := ∀ h idx, V h = some idx → idx.pos ≠ .inMempool

theorem OnlyDisk.spentValue {env : Env} {pool : CTxMemPool} {V : TxIndexMap} (hd : OnlyDisk V)
    (o : COutPoint) : Ledger.spentValue env pool V o = outValue env V o := by
  unfold Ledger.spentValue prevOut prevTx outValue
  cases hv : V o.hash with
  | none => rfl
  | some idx => simp [hd _ _ hv]

theorem OnlyDisk.applyTx {env : Env} {pos : CDiskTxPos} {V : TxIndexMap} (hd : OnlyDisk V)
    (hp : pos ≠ .inMempool) (tx : CTransaction) : OnlyDisk (Ledger.applyTx env pos V tx) := by
  intro h idx hi
  unfold Ledger.applyTx at hi
  by_cases hh : h = tx.getHash env
  · rw [hh, Function.update_self] at hi
    cases hi
    exact hp
  · rw [Function.update_of_ne hh] at hi
    cases hv : V h with
    | none =>
      rw [markAll_none hv] at hi
      cases hi
    | some old =>
      obtain ⟨idx', hm, hpos, _⟩ := markAll_entry pos (spends tx) hv
      rw [hm] at hi
      cases hi
      rw [hpos]
      exact hd h old hv

def created (env : Env) (tx : CTransaction) : List COutPoint :=
  (List.range tx.vout.length).map fun n => ⟨tx.getHash env, UInt32.ofNat n⟩

section Created

variable {env : Env} {tx : CTransaction}

theorem created_nodup (hlen : tx.vout.length < 2 ^ 32) : (created env tx).Nodup := by
  apply List.Nodup.map_on _ List.nodup_range
  intro a ha b hb he
  simp only [COutPoint.mk.injEq, true_and] at he
  have hval := congrArg UInt32.toNat he
  simp only [List.mem_range] at ha hb
  simp only [UInt32.toNat_ofNat'] at hval
  omega

theorem mem_created {o : COutPoint} (hlen : tx.vout.length < 2 ^ 32) :
    o ∈ created env tx ↔ o.hash = tx.getHash env ∧ o.n.toNat < tx.vout.length := by
  obtain ⟨h, n⟩ := o
  simp only [created, List.mem_map, List.mem_range, COutPoint.mk.injEq]
  constructor
  · intro h
    obtain ⟨a, ha, rfl, rfl⟩ := h
    refine ⟨rfl, ?_⟩
    simp only [UInt32.toNat_ofNat']
    omega
  · intro h
    obtain ⟨rfl, hn⟩ := h
    exact ⟨n.toNat, hn, rfl, by simp⟩

/-- Once indexed where it can be read, a transaction's outputs have their own values. -/
theorem created_value {V : TxIndexMap} {pos : CDiskTxPos} {spent : List CDiskTxPos}
    (hlen : tx.vout.length < 2 ^ 32) (hread : env.readTx pos = some tx)
    (hv : V (tx.getHash env) = some ⟨pos, spent⟩) :
    ((created env tx).map (outValue env V)).sum = tx.valueOut := by
  unfold CTransaction.valueOut created
  congr 1
  rw [List.map_map]
  apply List.ext_getElem
  · simp
  · intro i h₁ h₂
    have hi : i < tx.vout.length := by simpa using h₁
    have hmod : i % 4294967296 = i := Nat.mod_eq_of_lt (by omega)
    simp [outValue, hv, hread, hmod, hi]

end Created

section Apply

variable {env : Env} {pos : CDiskTxPos} {V : TxIndexMap} {tx : CTransaction}

/-- After a transaction is posted, what is unspent is what was and is not spent by it, and
its outputs. -/
theorem unspent_applyTx (hp : pos.isNull = false) (hlen : tx.vout.length < 2 ^ 32)
    (hn : NoUnspent V (tx.getHash env)) (o : COutPoint) :
    IsUnspent (applyTx env pos V tx) o ↔
      (IsUnspent V o ∧ o ∉ spends tx) ∨ o ∈ created env tx := by
  rw [mem_created hlen]
  by_cases hh : o.hash = tx.getHash env
  · have hold : ¬ IsUnspent V o := hn o hh
    simp only [hold, false_and, false_or, hh, true_and]
    unfold IsUnspent applyTx
    rw [hh, Function.update_self]
    constructor
    · intro h
      obtain ⟨idx, hi, hs⟩ := h
      cases hi
      have := (List.getElem?_eq_some_iff.mp hs).1
      simpa [CTxIndex.fresh] using this
    · intro hlt
      exact ⟨_, rfl, by simp [CTxIndex.fresh, hlt]⟩
  · simp only [hh, false_and, or_false]
    have hmark : IsUnspent (applyTx env pos V tx) o ↔ IsUnspent (markAll pos V (spends tx)) o := by
      unfold IsUnspent applyTx
      rw [Function.update_of_ne hh]
    rw [hmark, unspent_markAll hp, and_comm]

/-- Posting a transaction keeps the values of the other outputs. -/
theorem outValue_applyTx {o : COutPoint} (hh : o.hash ≠ tx.getHash env) :
    outValue env (applyTx env pos V tx) o = outValue env V o := by
  unfold outValue applyTx
  rw [Function.update_of_ne hh]
  cases hv : V o.hash with
  | none => rw [markAll_none hv]
  | some idx =>
    obtain ⟨idx', hm, hpos, _⟩ := markAll_entry pos (spends tx) hv
    simp [hm, hpos]

/-- A posted transaction changes the worth by what it creates less what it spends. -/
theorem Worth.applyTx {n : Int} (hw : Worth env V n) (hp : pos.isNull = false)
    (hlen : tx.vout.length < 2 ^ 32) (hn : NoUnspent V (tx.getHash env))
    (hread : env.readTx pos = some tx) (hd : (spends tx).Nodup)
    (hu : ∀ o ∈ spends tx, IsUnspent V o) :
    Worth env (Ledger.applyTx env pos V tx)
      (n + tx.valueOut - ((spends tx).map (outValue env V)).sum) := by
  obtain ⟨unspent, hmem, rfl⟩ := hw
  have hold : ∀ o ∈ unspent \ (spends tx).toFinset, o.hash ≠ tx.getHash env := by
    intro o ho
    simp only [Finset.mem_sdiff, hmem] at ho
    exact fun he => hn o he ho.1
  have hdisj : Disjoint (unspent \ (spends tx).toFinset) (created env tx).toFinset := by
    rw [Finset.disjoint_left]
    intro o ho hc
    rw [List.mem_toFinset, mem_created hlen] at hc
    exact hold o ho hc.1
  have hsub : (spends tx).toFinset ⊆ unspent := by
    intro o ho
    rw [hmem]
    exact hu o (List.mem_toFinset.mp ho)
  refine ⟨(unspent \ (spends tx).toFinset) ∪ (created env tx).toFinset, ?_, ?_⟩
  · intro o
    simp only [Finset.mem_union, Finset.mem_sdiff, hmem, List.mem_toFinset]
    exact (unspent_applyTx hp hlen hn o).symm
  · have hnew : ((created env tx).map (outValue env (Ledger.applyTx env pos V tx))).sum =
        tx.valueOut := created_value hlen hread (Function.update_self ..)
    rw [Finset.sum_union hdisj, List.sum_toFinset _ (created_nodup hlen), hnew,
      Finset.sum_congr rfl (fun o ho => outValue_applyTx (hold o ho))]
    have hsplit := Finset.sum_sdiff (f := outValue env V) hsub
    have hspent : ∑ o ∈ (spends tx).toFinset, outValue env V o =
        ((spends tx).map (outValue env V)).sum := List.sum_toFinset _ hd
    omega

end Apply

theorem outputs_le_size (tx : CTransaction) : tx.vout.length ≤ tx.getSerializeSize := by
  have hout : tx.vout.length ≤ (tx.vout.map fun o =>
      8 + getSizeOfCompactSize o.scriptPubKey.length + o.scriptPubKey.length).sum := by
    rw [← List.length_map (f := fun o : CTxOut =>
      8 + getSizeOfCompactSize o.scriptPubKey.length + o.scriptPubKey.length)]
    apply List.length_le_sum_of_one_le
    intro n hn
    obtain ⟨o, _, rfl⟩ := List.mem_map.mp hn
    omega
  unfold CTransaction.getSerializeSize
  omega

/-- `CheckTransaction` bounds the number of outputs by the block size. -/
theorem outputs_lt {tx : CTransaction} (h : tx.checkTransaction = .ok ()) :
    tx.vout.length < 2 ^ 32 := by
  simp only [CTransaction.checkTransaction, check_bind] at h
  obtain ⟨_, _, hsize, _⟩ := h
  have hsize := of_decide_eq_true hsize
  have hout := outputs_le_size tx
  unfold MAX_BLOCK_SIZE at hsize
  omega

section Block

variable {env : Env} {pindex : CBlockIndex}

/-- Posting the transactions of a block changes the worth by the value they create less the
value they spend. The ids still to come own nothing unspent, as in `undo_posted`. -/
theorem Worth.post_all (pool : CTxMemPool) (vtx : List CTransaction) (b : Book) {n : Int}
    (hw : Worth env b.index n) (hdisk : OnlyDisk b.index)
    (hadm : ∀ x ∈ trace (Book.post env pindex) b vtx, Admits env pool x.1.index x.2)
    (hcheck : ∀ tx ∈ vtx, tx.checkTransaction = .ok ())
    (hids : (vtx.map (CTransaction.getHash env)).Nodup)
    (hn : ∀ h ∈ vtx.map (CTransaction.getHash env), NoUnspent b.index h)
    (hread : ∀ x ∈ trace (nextTxPos false) b.nTxPos vtx,
      env.readTx (pindex.posOf x.1) = some x.2) :
    Worth env (vtx.foldl (Book.post env pindex) b).index
        (n + (total (Book.post env pindex) (fun _ tx => tx.valueOut) b vtx -
          total (Book.post env pindex) (fun b tx => valueIn env pool b.index tx) b vtx)) ∧
      OnlyDisk (vtx.foldl (Book.post env pindex) b).index := by
  induction vtx generalizing b n with
  | nil => simpa using ⟨hw, hdisk⟩
  | cons tx rest ih =>
    obtain ⟨hm, hids⟩ := List.nodup_cons.mp hids
    have ha := hadm (b, tx) (by simp)
    have hp := posOf_not_null pindex b.nTxPos
    have hin : valueIn env pool b.index tx = ((spends tx).map (outValue env b.index)).sum := by
      unfold valueIn
      rw [List.map_congr_left fun o _ => hdisk.spentValue o]
    have hw' : Worth env (b.post env pindex tx).index
        (n + tx.valueOut - valueIn env pool b.index tx) := by
      rw [hin]
      exact hw.applyTx hp (outputs_lt (hcheck tx (by simp))) (hn _ (by simp))
        (hread (b.nTxPos, tx) (by simp)) ha.distinct ha.unspent
    obtain ⟨hworth, hdisk'⟩ := ih (b.post env pindex tx) hw'
      (hdisk.applyTx (posOf_ne_inMempool pindex _) tx)
      (fun x hx => hadm x (by simp [hx])) (fun t ht => hcheck t (by simp [ht])) hids
      (fun h hh => (hn h (by simp [hh])).applyTx hp (fun he => hm (he ▸ hh)))
      (fun x hx => hread x (by simp only [trace_cons, List.mem_cons]; exact .inr hx))
    refine ⟨?_, hdisk'⟩
    rw [List.foldl_cons, total_cons, total_cons]
    convert hworth using 1
    omega

end Block

end Triangles.Ledger
