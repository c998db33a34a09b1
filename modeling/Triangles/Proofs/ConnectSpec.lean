import Triangles.Proofs.Book

/-! What the transaction loop of `ConnectBlock` computes: it posts the transactions to the
book that the queued changes lay over the database. -/

namespace Triangles.Ledger

open Outcome Trace CTransaction

def overlay (queued : QueuedChanges) (V : TxIndexMap) : TxIndexMap := fun h =>
  match queued.lookup h with
  | some txindex => some txindex
  | none => V h

@[simp] theorem overlay_empty (V : TxIndexMap) : overlay ∅ V = V := rfl

theorem overlay_insert (queued : QueuedChanges) (V : TxIndexMap) (h : uint256) (i : CTxIndex) :
    overlay (queued.insert h i) V = Function.update (overlay queued V) h (some i) := by
  funext k
  by_cases hk : k = h
  · subst hk
    simp [overlay]
  · simp [overlay, AList.lookup_insert_ne hk, Function.update_of_ne hk]

/-- Every fetched entry is the one the index has, with the transaction behind it. -/
def Fetched (env : Env) (pool : CTxMemPool) (V : TxIndexMap) (inputs : MapPrevTx) : Prop :=
  ∀ h e, inputs.lookup h = some e → V h = some e.1 ∧ prevTx env pool V h = some e.2

theorem Fetched.insert {env : Env} {pool : CTxMemPool} {V : TxIndexMap} {inputs : MapPrevTx}
    (hf : Fetched env pool V inputs) {h : uint256} {e : CTxIndex × CTransaction}
    (hv : V h = some e.1) (ht : prevTx env pool V h = some e.2) :
    Fetched env pool V (inputs.insert h e) := by
  intro k e' hk
  by_cases hh : k = h
  · subst hh
    rw [AList.lookup_insert] at hk
    cases hk
    exact ⟨hv, ht⟩
  · exact hf k e' (by rwa [AList.lookup_insert_ne hh] at hk)

section Fetch

variable {env : Env} {txdb : CTxDB} {queued : QueuedChanges} {pool : CTxMemPool}
  {fBlock fMiner : Bool}

theorem found_eq_overlay (hq : (fBlock || fMiner) = true) (hash : uint256) :
    (if (fBlock || fMiner) && decide (hash ∈ queued) then queued.lookup hash
      else txdb.readTxIndex hash) = overlay queued txdb.txIndex hash := by
  rw [hq]
  unfold overlay
  by_cases hm : hash ∈ queued
  · obtain ⟨i, hi⟩ := Option.isSome_iff_exists.mp (AList.lookup_isSome.mpr hm)
    simp [hm, hi]
  · rw [AList.lookup_eq_none.mpr hm]
    simp [hm, CTxDB.readTxIndex_eq]

theorem fetchInput_spec (hq : (fBlock || fMiner) = true) {inputs inputs' : MapPrevTx}
    {txin : CTxIn} (h : fetchInput env txdb queued pool fBlock fMiner inputs txin = .ok inputs')
    (hf : Fetched env pool (overlay queued txdb.txIndex) inputs) :
    Fetched env pool (overlay queued txdb.txIndex) inputs' := by
  unfold fetchInput at h
  simp only [found_eq_overlay hq] at h
  split at h
  · cases h
    exact hf
  · cases hv : overlay queued txdb.txIndex txin.prevout.hash with
    | none =>
      -- without an entry both the miner and a block give up
      simp only [hv] at h
      split at h
      · cases h
      · rename_i hm
        rw [Bool.or_eq_true, or_iff_left hm] at hq
        rw [if_pos hq] at h
        cases h
    | some txindex =>
      simp only [hv] at h
      split at h
      · rename_i hpos
        cases hp : pool.lookup txin.prevout.hash with
        | none => simp [hp] at h
        | some txPrev =>
          simp only [hp, Except.ok.injEq] at h
          subst h
          exact hf.insert hv (by simp [prevTx, hv, hpos, hp])
      · rename_i hpos
        cases hp : env.readTx txindex.pos with
        | none => simp [hp] at h
        | some txPrev =>
          simp only [hp, Except.ok.injEq] at h
          subst h
          exact hf.insert hv (by simp [prevTx, hv, hpos, hp])

theorem fetchInputs_spec (hq : (fBlock || fMiner) = true) {tx : CTransaction} {inputs : MapPrevTx}
    (h : fetchInputs env txdb queued pool fBlock fMiner tx = .ok inputs)
    (hc : tx.isCoinBase = false) :
    Fetched env pool (overlay queued txdb.txIndex) inputs ∧
      ∀ txin ∈ tx.vin, ∃ e, inputs.lookup txin.prevout.hash = some e ∧
        txin.prevout.n.toNat < e.2.vout.length := by
  simp only [fetchInputs, hc, Bool.false_eq_true, ↓reduceIte, bind_ok, pure_ok, forM_ok] at h
  obtain ⟨m, hm, _, hrange, rfl⟩ := h
  constructor
  · exact foldlM_keeps _ _ (fun _ _ _ _ => fetchInput_spec hq) _ _ hm (by intro k e he; cases he)
  · intro txin hin
    have hr := hrange txin hin
    simp only [checkPrevoutRange, check_ok] at hr
    cases he : m.lookup txin.prevout.hash with
    | none => simp [he] at hr
    | some e =>
      simp only [he, Bool.and_eq_true, decide_eq_true_eq] at hr
      exact ⟨e, rfl, hr.1⟩

end Fetch

section Values

variable {env : Env} {pool : CTxMemPool} {V : TxIndexMap} {inputs : MapPrevTx}

/-- The output an input refers to is the one the index leads to. -/
theorem Fetched.output (hf : Fetched env pool V inputs) {txin : CTxIn}
    {e : CTxIndex × CTransaction} (he : inputs.lookup txin.prevout.hash = some e) :
    prevOut env pool V txin.prevout = e.2.vout[txin.prevout.n.toNat]? := by
  simp [prevOut, (hf _ e he).2]

theorem getOutputFor_spec (hf : Fetched env pool V inputs) {txin : CTxIn} {txout : CTxOut}
    (h : getOutputFor txin inputs = .ok txout) :
    prevOut env pool V txin.prevout = some txout := by
  unfold getOutputFor at h
  cases he : inputs.lookup txin.prevout.hash with
  | none => simp [he] at h
  | some e =>
    rw [hf.output he]
    simp only [he] at h
    cases ho : e.2.vout[txin.prevout.n.toNat]? with
    | none => simp [ho] at h
    | some o =>
      simp only [ho, Except.ok.injEq] at h
      rw [h]

theorem sum_inputs_spec (hf : Fetched env pool V inputs) {vin : List CTxIn} {a b : Int}
    (h : vin.foldlM (fun nResult txin => do
      let txout ← getOutputFor txin inputs
      pure (nResult + txout.nValue)) a = .ok b) :
    b = a + ((vin.map CTxIn.prevout).map (spentValue env pool V)).sum := by
  rw [List.map_map]
  refine foldlM_sum (fun nResult txin c hc => ?_) h
  simp only [bind_ok, pure_ok] at hc
  obtain ⟨txout, ho, rfl⟩ := hc
  simp [spentValue, getOutputFor_spec hf ho]

theorem spends_of_not_coinBase {tx : CTransaction} (hc : tx.isCoinBase = false) :
    spends tx = tx.vin.map CTxIn.prevout := by simp [spends, hc]

theorem getValueIn_spec (hf : Fetched env pool V inputs) {tx : CTransaction} {n : Int}
    (hc : tx.isCoinBase = false) (h : getValueIn tx inputs = .ok n) :
    n = valueIn env pool V tx := by
  simp only [getValueIn, hc, Bool.false_eq_true, ↓reduceIte] at h
  rw [sum_inputs_spec hf h, valueIn, spends_of_not_coinBase hc, Int.zero_add]

def redeemSigOps (env : Env) (pool : CTxMemPool) (V : TxIndexMap) (txin : CTxIn) : Nat :=
  match prevOut env pool V txin.prevout with
  | none => 0
  | some txout =>
    if isPayToScriptHash txout.scriptPubKey then getP2SHSigOps txout.scriptPubKey txin.scriptSig
    else 0

def sigOpsOf (env : Env) (pool : CTxMemPool) (V : TxIndexMap) (tx : CTransaction) : Nat :=
  tx.getLegacySigOpCount + (tx.vin.map (redeemSigOps env pool V)).sum

theorem sum_sigops_spec (hf : Fetched env pool V inputs) {vin : List CTxIn} {a b : Nat}
    (h : vin.foldlM (fun nSigOps txin => do
      let prevout ← getOutputFor txin inputs
      pure (if isPayToScriptHash prevout.scriptPubKey then
        nSigOps + getP2SHSigOps prevout.scriptPubKey txin.scriptSig else nSigOps)) a = .ok b) :
    b = a + (vin.map (redeemSigOps env pool V)).sum := by
  refine foldlM_sum (fun nSigOps txin c hc => ?_) h
  simp only [bind_ok, pure_ok] at hc
  obtain ⟨txout, ho, hc⟩ := hc
  rw [redeemSigOps, getOutputFor_spec hf ho, ← hc]
  simp only
  split <;> rfl

theorem getP2SHSigOpCount_spec (hf : Fetched env pool V inputs) {tx : CTransaction} {k : Nat}
    (hc : tx.isCoinBase = false) (h : getP2SHSigOpCount tx inputs = .ok k) :
    tx.getLegacySigOpCount + k = sigOpsOf env pool V tx := by
  simp only [getP2SHSigOpCount, hc, Bool.false_eq_true, ↓reduceIte] at h
  rw [sum_sigops_spec hf h, Nat.zero_add, sigOpsOf]

/-- The first loop of `ConnectInputs` adds up the same values. -/
theorem checkInput_spec (hf : Fetched env pool V inputs) {pindexBlock : CBlockIndex}
    {tx : CTransaction} {vin : List CTxIn} {a b : Int}
    (h : vin.foldlM (checkInput env pindexBlock tx inputs) a = .ok b) :
    b = a + ((vin.map CTxIn.prevout).map (spentValue env pool V)).sum := by
  rw [List.map_map]
  refine foldlM_sum (fun nValueIn txin c hc => ?_) h
  unfold checkInput at hc
  cases he : inputs.lookup txin.prevout.hash with
  | none => simp [he] at hc
  | some e =>
    simp only [he] at hc
    cases ho : e.2.vout[txin.prevout.n.toNat]? with
    | none => simp [ho] at hc
    | some txout =>
      simp only [ho, bind_ok, check_ok, pure_ok, exists_const] at hc
      obtain ⟨_, _, _, _, rfl⟩ := hc
      simp [spentValue, hf.output he, ho]

end Values

section Spend

variable {V : TxIndexMap} {verify : CTransaction → CTransaction → Nat → Bool} {tx : CTransaction}
  {pos : CDiskTxPos} {fBlock fMiner : Bool}

/-- A round that succeeds: the output is there and unspent, its signature holds, and the entry is
written back with the output spent. -/
theorem spendInput_ok {acc acc' : MapPrevTx × QueuedChanges} {input : CTxIn × Nat} :
    spendInput verify tx pos fBlock fMiner acc input = .ok acc' ↔
      ∃ e spent, acc.1.lookup input.1.prevout.hash = some e ∧
        e.1.vSpent[input.1.prevout.n.toNat]? = some spent ∧ spent.isNull = true ∧
        verify e.2 tx input.2 = true ∧
        acc' =
          (acc.1.insert input.1.prevout.hash
            ({ e.1 with vSpent := e.1.vSpent.set input.1.prevout.n.toNat pos }, e.2),
          if fBlock || fMiner then
            acc.2.insert input.1.prevout.hash
              { e.1 with vSpent := e.1.vSpent.set input.1.prevout.n.toNat pos }
          else acc.2) := by
  obtain ⟨inputs, queued⟩ := acc
  obtain ⟨txin, i⟩ := input
  unfold spendInput
  cases he : inputs.lookup txin.prevout.hash with
  | none => simp [he]
  | some e =>
    obtain ⟨txindex, txPrev⟩ := e
    cases hs : txindex.vSpent[txin.prevout.n.toNat]? with
    | none => simp [he, hs]
    | some spent =>
      simp only [he, hs, bind_ok, check_ok, pure_ok, exists_const]
      constructor
      · rintro ⟨hnull, hverify, rfl⟩
        exact ⟨_, spent, rfl, hs, hnull, hverify, rfl⟩
      · rintro ⟨e, spent', he', hs', hnull, hverify, rfl⟩
        cases he'
        rw [hs] at hs'
        cases hs'
        exact ⟨hnull, hverify, rfl⟩

/-- The copies the second loop works on are the entries of the book so far. -/
def Current (V : TxIndexMap) (acc : MapPrevTx × QueuedChanges) : Prop :=
  ∀ h e, acc.1.lookup h = some e → overlay acc.2 V h = some e.1

theorem spendInput_spec (hq : (fBlock || fMiner) = true) {acc acc' : MapPrevTx × QueuedChanges}
    {input : CTxIn × Nat} (h : spendInput verify tx pos fBlock fMiner acc input = .ok acc')
    (hc : Current V acc) :
    Current V acc' ∧ overlay acc'.2 V = mark pos (overlay acc.2 V) input.1.prevout ∧
      IsUnspent (overlay acc.2 V) input.1.prevout := by
  obtain ⟨inputs, queued⟩ := acc
  obtain ⟨txin, i⟩ := input
  obtain ⟨⟨txindex, txPrev⟩, spent, he, hs, hnull, -, rfl⟩ := spendInput_ok.mp h
  have hv : overlay queued V txin.prevout.hash = some txindex := hc _ _ he
  have hmark : overlay (queued.insert txin.prevout.hash
      { txindex with vSpent := txindex.vSpent.set txin.prevout.n.toNat pos }) V =
      mark pos (overlay queued V) txin.prevout := by
    rw [overlay_insert, mark, hv]
    rfl
  rw [if_pos hq]
  refine ⟨?_, hmark, ⟨txindex, hv, by rw [hs, CDiskTxPos.eq_null hnull]⟩⟩
  intro k e hk
  by_cases hh : k = txin.prevout.hash
  · subst hh
    rw [AList.lookup_insert] at hk
    cases hk
    rw [overlay_insert, Function.update_self]
  · rw [AList.lookup_insert_ne hh] at hk
    rw [overlay_insert, Function.update_of_ne hh]
    exact hc k e hk

/-- Outpoints that are unspent when their turn comes are distinct and were unspent before. -/
theorem unspent_in_turn (hp : pos.isNull = false) {os : List COutPoint} {W : TxIndexMap}
    (h : ∀ x ∈ trace (mark pos) W os, IsUnspent x.1 x.2) :
    os.Nodup ∧ ∀ o ∈ os, IsUnspent W o := by
  induction os generalizing W with
  | nil => simp
  | cons o os ih =>
    obtain ⟨hd, hu⟩ := ih (fun x hx => h x (List.mem_cons_of_mem _ hx))
    have hrest : ∀ q ∈ os, q ≠ o ∧ IsUnspent W q := fun q hq => unspent_of_mark hp (hu q hq)
    refine ⟨List.nodup_cons.mpr ⟨fun hm => (hrest o hm).1 rfl, hd⟩, ?_⟩
    intro q hq
    rcases List.mem_cons.mp hq with rfl | hq
    · exact h (W, q) (by simp)
    · exact (hrest q hq).2

theorem spend_loop_spec (hq : (fBlock || fMiner) = true) (hp : pos.isNull = false)
    {l : List CTxIn} {acc acc' : MapPrevTx × QueuedChanges}
    (h : l.zipIdx.foldlM (spendInput verify tx pos fBlock fMiner) acc = .ok acc')
    (hc : Current V acc) :
    overlay acc'.2 V = markAll pos (overlay acc.2 V) (l.map CTxIn.prevout) ∧
      (l.map CTxIn.prevout).Nodup ∧
      ∀ o ∈ l.map CTxIn.prevout, IsUnspent (overlay acc.2 V) o := by
  have hitems : l.zipIdx.map (fun x : CTxIn × Nat => x.1.prevout) = l.map CTxIn.prevout := by
    rw [← List.zipIdx_map_fst 0 l, List.map_map, List.zipIdx_map_fst]
    rfl
  obtain ⟨_, hv, hu⟩ := foldlM_refines (A := fun acc => overlay acc.2 V) (I := Current V)
    (g := fun W (x : CTxIn × Nat) => mark pos W x.1.prevout)
    (P := fun W (x : CTxIn × Nat) => IsUnspent W x.1.prevout)
    (fun _ _ _ => spendInput_spec hq) h hc
  refine ⟨?_, unspent_in_turn hp ?_⟩
  · rw [hv, ← hitems, markAll, List.foldl_map]
  · rw [← hitems]
    intro x hx
    rw [trace_map] at hx
    obtain ⟨y, hy, rfl⟩ := List.mem_map.mp hx
    exact hu y hy

end Spend

section Transaction

variable {env : Env} {ctx : Ctx} {txdb : CTxDB} {pindex : CBlockIndex} {fBlock fMiner : Bool}

theorem checkFee_spec {tx : CTransaction} {nValueIn : Int}
    (h : tx.checkFee fBlock nValueIn = .ok ()) (hs : tx.isCoinStake = false) :
    tx.valueOut ≤ nValueIn := by
  simp only [checkFee, hs, Bool.false_eq_true, ↓reduceIte, bind_ok, check_ok, exists_const] at h
  obtain ⟨nValueOut, hout, hle, _⟩ := h
  rw [get_value_out_ok hout] at hle
  simpa using hle

/-- Fetching and connecting the inputs of a transaction marks what it spends. -/
theorem connectInputs_spec (hq : (fBlock || fMiner) = true) {tx : CTransaction}
    {inputs : MapPrevTx} {queued queued' : QueuedChanges} {pos : CDiskTxPos}
    (hp : pos.isNull = false) (hc : tx.isCoinBase = false)
    (hf : fetchInputs env txdb queued ctx.mempool fBlock fMiner tx = .ok inputs)
    (h : connectInputs env ctx tx inputs queued pos pindex fBlock fMiner = .ok queued') :
    overlay queued' txdb.txIndex = markAll pos (overlay queued txdb.txIndex) (spends tx) ∧
      Admits env ctx.mempool (overlay queued txdb.txIndex) tx := by
  obtain ⟨hfetched, hin⟩ := fetchInputs_spec hq hf hc
  simp only [connectInputs, hc, Bool.false_eq_true, ↓reduceIte, bind_ok, pure_ok] at h
  obtain ⟨nValueIn, hsum, ⟨inputs', mapTestPool⟩, hspend, _, hfee, rfl⟩ := h
  obtain ⟨hmark, hd, hu⟩ := spend_loop_spec (V := txdb.txIndex) hq hp hspend
    (fun k e he => (hfetched k e he).1)
  rw [spends_of_not_coinBase hc]
  refine ⟨hmark, ?_, ?_, ?_, ?_⟩
  · rwa [spends_of_not_coinBase hc]
  · rwa [spends_of_not_coinBase hc]
  · rw [spends_of_not_coinBase hc]
    intro o ho
    obtain ⟨txin, hmem, rfl⟩ := List.mem_map.mp ho
    obtain ⟨e, he, hlt⟩ := hin txin hmem
    exact ⟨e.2.vout[txin.prevout.n.toNat], by rw [hfetched.output he]; simp [hlt]⟩
  · intro _ hs
    have hvalue := checkFee_spec hfee hs
    rw [checkInput_spec hfetched hsum, Int.zero_add] at hvalue
    rwa [valueIn, spends_of_not_coinBase hc]

def bookOf (V : TxIndexMap) (acc : ConnectAcc) : Book := ⟨overlay acc.mapQueuedChanges V, acc.nTxPos⟩

def feeOf (env : Env) (pool : CTxMemPool) (V : TxIndexMap) (tx : CTransaction) : Int :=
  if tx.isCoinBase || tx.isCoinStake then 0 else valueIn env pool V tx - tx.valueOut

def gainOf (env : Env) (pool : CTxMemPool) (V : TxIndexMap) (tx : CTransaction) : Int :=
  tx.valueOut - valueIn env pool V tx

/-- What one round of the loop does when it succeeds. -/
structure Round (env : Env) (pool : CTxMemPool) (pindex : CBlockIndex) (V : TxIndexMap)
    (acc : ConnectAcc) (tx : CTransaction) (acc' : ConnectAcc) : Prop where
  book : bookOf V acc' = (bookOf V acc).post env pindex tx
  admits : Admits env pool (bookOf V acc).index tx
  overwrites : NoUnspent V (tx.getHash env)
  valueOut : acc'.nValueOut = acc.nValueOut + tx.valueOut
  valueIn : acc'.nValueIn = acc.nValueIn + Ledger.valueIn env pool (bookOf V acc).index tx
  fees : acc'.nFees = acc.nFees + feeOf env pool (bookOf V acc).index tx
  stake : acc'.nStakeReward =
    if tx.isCoinStake then gainOf env pool (bookOf V acc).index tx else acc.nStakeReward

theorem mayOverwrite_spec {h : uint256} (hm : mayOverwrite txdb h = true) :
    NoUnspent txdb.txIndex h := by
  rintro o rfl ⟨idx, hv, hs⟩
  rw [mayOverwrite, CTxDB.readTxIndex_eq, hv] at hm
  have hall := List.all_eq_true.mp hm .null (List.mem_of_getElem? hs)
  simp at hall

theorem coinBase_not_coinStake {tx : CTransaction} (h : tx.isCoinBase = true) :
    tx.isCoinStake = false := by
  unfold isCoinBase at h
  unfold isCoinStake
  split at h
  · rename_i txin hv
    simp only [Bool.and_eq_true] at h
    rw [hv]
    split
    · rename_i hm _
      cases hm
      simp [h.1]
    · rfl
  · cases h

theorem connectTx_spec {acc acc' : ConnectAcc} {tx : CTransaction}
    (h : connectTx env ctx txdb pindex false acc tx = .ok acc') :
    Round env ctx.mempool pindex txdb.txIndex acc tx acc' := by
  simp only [connectTx, check_bind] at h
  obtain ⟨hover, _, h⟩ := h
  cases hc : tx.isCoinBase with
  | true =>
    have hs := coinBase_not_coinStake hc
    have hspends : spends tx = [] := by simp [spends, hc]
    simp only [hc, ↓reduceIte, bind_ok, pure_ok] at h
    obtain ⟨n, hn, rfl⟩ := h
    refine ⟨?_, ⟨?_, ?_, ?_, ?_⟩, mayOverwrite_spec hover, ?_, ?_, ?_, ?_⟩
    · simp [bookOf, Book.post, applyTx, hspends, markAll, overlay_insert]
    · simp [hspends]
    · simp [hspends]
    · simp [hspends]
    · simp [hc]
    · rw [get_value_out_ok hn]
    · simp [Ledger.valueIn, hspends]
    · simp [feeOf, hc]
    · simp [hs]
  | false =>
    simp only [hc, Bool.false_eq_true, ↓reduceIte, bind_ok, pure_ok, check_ok, exists_const] at h
    obtain ⟨inputs, hf, nP2SH, _, _, nIn, hin, nOut, hout, queued, hconn, rfl⟩ := h
    obtain ⟨hmark, hadmits⟩ := connectInputs_spec rfl (posOf_not_null pindex _) hc hf hconn
    have hvin := getValueIn_spec (fetchInputs_spec rfl hf hc).1 hc hin
    have hvout := get_value_out_ok hout
    refine ⟨?_, hadmits, mayOverwrite_spec hover, ?_, ?_, ?_, ?_⟩
    · simp only [bookOf, Book.post, applyTx, overlay_insert, hmark]
    · rw [hvout]
    · rw [hvin]
      rfl
    · cases hs : tx.isCoinStake <;> simp [feeOf, hc, hs, hvin, hvout, bookOf]
    · cases hs : tx.isCoinStake <;> simp [gainOf, hvin, hvout, bookOf]

end Transaction

end Triangles.Ledger
