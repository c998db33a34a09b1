import Triangles.Model.Miner
import Triangles.Proofs.DoubleSpend
import Triangles.Proofs.PoolChain

/-! What `CreateNewBlock` puts into a template. The test pool over the database is the index
with the collected transactions posted to it, so a template extends the list of transactions
that the index records. -/

namespace Triangles

open Outcome Trace Ledger

section MinFee

theorem pos_ite {c : Prop} [Decidable c] {a b : Int} (ha : 0 < a) (hb : 0 < b) :
    0 < if c then a else b := by
  split
  · exact ha
  · exact hb

/-- There is always something to pay. -/
theorem getMinFee_pos (tx : CTransaction) (nBlockSize : Nat) (mode : GetMinFeeMode) (nBytes : Nat) :
    0 < tx.getMinFee nBlockSize mode nBytes := by
  have hmax : 0 < MAX_MONEY := by decide
  have hbase : 0 < if mode = .GMF_RELAY then MIN_RELAY_TX_FEE else MIN_TX_FEE :=
    pos_ite (by decide) (by decide)
  have hmul : ∀ (k : Nat) {fee : Int}, 0 < fee → 0 < (1 + (k : Int)) * fee := fun k fee hf =>
    Int.mul_pos (by omega) hf
  unfold CTransaction.getMinFee
  simp only
  split
  · exact hmax
  · rename_i hroom
    refine pos_ite ?_ hmax
    split
    · rename_i hfull
      have hdiv : 0 < MAX_BLOCK_SIZE_GEN / (MAX_BLOCK_SIZE_GEN - (nBlockSize + nBytes)) := by
        refine Nat.div_pos (Nat.sub_le ..) ?_
        have := fun hle => hroom ⟨hfull, hle⟩
        omega
      exact Int.mul_pos (pos_ite hbase (hmul _ hbase)) (by exact_mod_cast hdiv)
    · exact pos_ite hbase (hmul _ hbase)

theorem foldl_addTxOut_nonneg {l : List CTxOut} {a b : Int} (ha : 0 ≤ a)
    (h : l.foldlM CTransaction.addTxOut a = .ok b) : 0 ≤ b := by
  induction l generalizing a with
  | nil =>
    rw [List.foldlM_nil, pure_ok] at h
    exact h ▸ ha
  | cons o l ih =>
    simp only [List.foldlM_cons, CTransaction.addTxOut, bind_ok, check_ok, pure_ok,
      exists_const] at h
    obtain ⟨c, ⟨hrange, rfl⟩, hl⟩ := h
    apply ih ?_ hl
    simp only [moneyRange, Bool.and_eq_true, decide_eq_true_eq] at hrange
    exact hrange.2.1

theorem valueOut_nonneg {tx : CTransaction} {k : Int} (h : tx.getValueOut = .ok k) :
    0 ≤ tx.valueOut := get_value_out_ok h ▸ foldl_addTxOut_nonneg le_rfl h

end MinFee

section Collect

variable {double : Type} {env : Env} {host : Host} {m : Miner double} {n : FullNode}

/-- The two states hold the same block; the queue may differ. -/
structure SameBlock (c c' : Collected double) : Prop where
  vtx : c'.vtx = c.vtx
  mapTestPool : c'.mapTestPool = c.mapTestPool
  nBlockSize : c'.nBlockSize = c.nBlockSize
  nBlockSigOps : c'.nBlockSigOps = c.nBlockSigOps
  nFees : c'.nFees = c.nFees

theorem SameBlock.refl (c : Collected double) : SameBlock c c := ⟨rfl, rfl, rfl, rfl, rfl⟩

theorem SameBlock.trans {c c' c'' : Collected double} (h : SameBlock c c') (h' : SameBlock c' c'') :
    SameBlock c c'' where
  vtx := h'.vtx.trans h.vtx
  mapTestPool := h'.mapTestPool.trans h.mapTestPool
  nBlockSize := h'.nBlockSize.trans h.nBlockSize
  nBlockSigOps := h'.nBlockSigOps.trans h.nBlockSigOps
  nFees := h'.nFees.trans h.nFees

theorem release_sameBlock (hash : uint256) (c : Collected double) (porphan : Nat) :
    SameBlock c (release m hash c porphan) := by
  unfold release
  split
  · exact .refl c
  · split
    · exact .refl c
    · exact ⟨rfl, rfl, rfl, rfl, rfl⟩

theorem foldl_release_sameBlock (hash : uint256) (l : List Nat) (c : Collected double) :
    SameBlock c (l.foldl (release m hash) c) := by
  induction l generalizing c with
  | nil => exact .refl c
  | cons porphan l ih => exact (release_sameBlock hash c porphan).trans (ih _)

theorem addTx_sameBlock (env : Env) (m : Miner double) (mapDependers : uint256 → List Nat)
    (c : Collected double) (tx : CTransaction) (mapTestPool : QueuedChanges) (nTxSigOps : Nat)
    (nTxFees : Int) :
    SameBlock
      { c with
        vtx := c.vtx ++ [tx]
        mapTestPool := mapTestPool.insert (tx.getHash env) (.fresh .inMempool tx.vout.length)
        nBlockSize := c.nBlockSize + tx.getSerializeSize
        nBlockSigOps := c.nBlockSigOps + nTxSigOps
        nFees := c.nFees + nTxFees }
      (addTx env m mapDependers c tx mapTestPool nTxSigOps nTxFees) :=
  foldl_release_sameBlock ..

theorem sortByFee_sameBlock (c : Collected double) (p : TxPriority double) :
    SameBlock c (sortByFee m c p) := by
  unfold sortByFee
  split
  · exact ⟨rfl, rfl, rfl, rfl, rfl⟩
  · exact .refl c

/-- Every transaction on the queue or waiting for it has the property. -/
structure OnQueue (P : CTransaction → Prop) (c : Collected double) : Prop where
  priority : ∀ p ∈ c.vecPriority, P p.ptx
  orphan : ∀ o ∈ c.vOrphan, P o.ptx

variable {P : CTransaction → Prop}

theorem OnQueue.release {c : Collected double} (h : OnQueue P c) (hash : uint256) (porphan : Nat) :
    OnQueue P (Triangles.release m hash c porphan) := by
  unfold Triangles.release
  split
  · exact h
  · rename_i orphan ho
    have hp : P orphan.ptx := h.orphan _ (List.mem_of_getElem? ho)
    split
    · exact h
    · constructor
      · simp only
        split
        · intro p hm
          rcases List.mem_append.mp ((m.heap.push_perm ..).mem_iff.mp hm) with hm | hm
          · exact h.priority p hm
          · rw [List.mem_singleton.mp hm]
            exact hp
        · exact h.priority
      · intro o hm
        rcases List.mem_or_eq_of_mem_set hm with hm | rfl
        · exact h.orphan o hm
        · exact hp

theorem OnQueue.foldl_release {c : Collected double} (h : OnQueue P c) (hash : uint256)
    (l : List Nat) : OnQueue P (l.foldl (Triangles.release m hash) c) :=
  List.foldlRecOn (motive := OnQueue P) l _ h fun _ h porphan _ => h.release hash porphan

theorem OnQueue.sortByFee {c : Collected double} (h : OnQueue P c) (p : TxPriority double) :
    OnQueue P (Triangles.sortByFee m c p) := by
  unfold Triangles.sortByFee
  split
  · exact ⟨fun q hq => h.priority q ((m.heap.make_perm ..).mem_iff.mp hq), h.orphan⟩
  · exact h

/-- What entering the block does and asks for: `V` is the index in the database. -/
structure Added (env : Env) (pool : CTxMemPool) (V : TxIndexMap) (c : Collected double)
    (tx : CTransaction) (c' : Collected double) : Prop where
  vtx : c'.vtx = c.vtx ++ [tx]
  index : overlay c'.mapTestPool V = applyTx env .inMempool (overlay c.mapTestPool V) tx
  admits : Ledger.Admits env pool (overlay c.mapTestPool V) tx
  size : c'.nBlockSize = c.nBlockSize + tx.getSerializeSize
  sigOps : c'.nBlockSigOps = c.nBlockSigOps + sigOpsOf env pool (overlay c.mapTestPool V) tx
  sigOps_lt : c'.nBlockSigOps < MAX_BLOCK_SIGOPS
  fees : c'.nFees = c.nFees + feeOf env pool (overlay c.mapTestPool V) tx
  spends_some : spends tx ≠ []

/-- A transaction of the pool that may go into a block. -/
structure Ordinary (tx : CTransaction) : Prop where
  not_coinBase : tx.isCoinBase = false
  not_coinStake : tx.isCoinStake = false

variable {fProofOfStake : Bool} {pindexPrev : CBlockIndex} {mapDependers : uint256 → List Nat}

/-- A transaction either changes nothing or has passed every test on its inputs. -/
theorem connectTxInputs_ok {nMinFee : Int} {c c' : Collected double} {tx : CTransaction}
    (h : connectTxInputs env host m n pindexPrev mapDependers nMinFee c tx = .ok c') :
    c' = c ∨ ∃ mapInputs nValueIn nValueOut nP2SHSigOps mapTestPool,
      tx.fetchInputs env n.openTxDb c.mapTestPool n.mempool false true = .ok mapInputs ∧
      tx.getValueIn mapInputs = .ok nValueIn ∧ tx.getValueOut = .ok nValueOut ∧
      nMinFee ≤ nValueIn - nValueOut ∧ tx.getP2SHSigOpCount mapInputs = .ok nP2SHSigOps ∧
      c.nBlockSigOps + (tx.getLegacySigOpCount + nP2SHSigOps) < MAX_BLOCK_SIGOPS ∧
      tx.connectInputs env (n.ctx host) mapInputs c.mapTestPool .inMempool pindexPrev false true =
        .ok mapTestPool ∧
      c' = addTx env m mapDependers c tx mapTestPool (tx.getLegacySigOpCount + nP2SHSigOps)
        (nValueIn - nValueOut) := by
  unfold connectTxInputs at h
  split at h
  · cases h
    exact .inl rfl
  · rename_i mapInputs hfetch
    obtain ⟨nValueIn, hin, h⟩ := bind_ok.mp h
    obtain ⟨nValueOut, hout, h⟩ := bind_ok.mp h
    by_cases hpaid : nValueIn - nValueOut < nMinFee
    · rw [if_pos hpaid] at h
      exact .inl (pure_ok.mp h).symm
    · rw [if_neg hpaid] at h
      obtain ⟨nP2SHSigOps, hops, h⟩ := bind_ok.mp h
      by_cases hsigops :
          MAX_BLOCK_SIGOPS ≤ c.nBlockSigOps + (tx.getLegacySigOpCount + nP2SHSigOps)
      · rw [if_pos hsigops] at h
        exact .inl (pure_ok.mp h).symm
      · rw [if_neg hsigops] at h
        split at h
        · exact .inl (pure_ok.mp h).symm
        · rename_i mapTestPool hconnect
          exact .inr ⟨mapInputs, nValueIn, nValueOut, nP2SHSigOps, mapTestPool, hfetch, hin, hout,
            Int.not_lt.mp hpaid, hops, Nat.not_le.mp hsigops, hconnect, (pure_ok.mp h).symm⟩

theorem connectTxInputs_cases {nMinFee : Int} (hfee : 0 < nMinFee) {c c' : Collected double}
    {tx : CTransaction} (ho : Ordinary tx)
    (h : connectTxInputs env host m n pindexPrev mapDependers nMinFee c tx = .ok c') :
    c' = c ∨ Added env n.mempool n.openTxDb.txIndex c tx c' := by
  obtain rfl | ⟨mapInputs, nValueIn, nValueOut, nP2SHSigOps, mapTestPool, hfetch, hin, hout, hpaid,
    hops, hsigops, hconnect, rfl⟩ := connectTxInputs_ok h
  · exact .inl rfl
  · right
    have hc := ho.not_coinBase
    have hfetched := (fetchInputs_spec (Bool.false_or true) hfetch hc).1
    have hfetch' : tx.fetchInputs env n.openTxDb c.mapTestPool (n.ctx host).mempool false true =
      .ok mapInputs := hfetch
    obtain ⟨hmark, hadmits⟩ := connectInputs_spec (Bool.false_or true) rfl hc hfetch' hconnect
    obtain rfl := getValueIn_spec hfetched hc hin
    have hsum := getP2SHSigOpCount_spec hfetched hc hops
    have hnonneg := valueOut_nonneg hout
    obtain rfl := get_value_out_ok hout
    have hsame := addTx_sameBlock env m mapDependers c tx mapTestPool
      (tx.getLegacySigOpCount + nP2SHSigOps)
      (valueIn env n.mempool (overlay c.mapTestPool n.openTxDb.txIndex) tx - tx.valueOut)
    refine ⟨hsame.vtx, ?_, hadmits, hsame.nBlockSize, ?_, ?_, ?_, ?_⟩
    · rw [hsame.mapTestPool, overlay_insert, hmark, applyTx]
    · rw [hsame.nBlockSigOps, hsum]
    · rw [hsame.nBlockSigOps]
      exact hsigops
    · rw [hsame.nFees, feeOf, hc, ho.not_coinStake]
      rfl
    · -- a fee is paid out of what is spent
      intro hnil
      rw [valueIn, hnil, List.map_nil, List.sum_nil] at hpaid
      omega

theorem connectTxInputs_queued {nMinFee : Int} {c c' : Collected double} {tx : CTransaction}
    (hq : OnQueue P c)
    (h : connectTxInputs env host m n pindexPrev mapDependers nMinFee c tx = .ok c') :
    OnQueue P c' := by
  obtain rfl | ⟨_, _, _, _, _, -, -, -, -, -, -, -, rfl⟩ := connectTxInputs_ok h
  · exact hq
  · apply OnQueue.foldl_release
    exact ⟨hq.priority, hq.orphan⟩

/-- The state of the loop: the test pool over the index `V` of the chain's transactions is
that index with the block posted to it, and the counters add up over the block. -/
structure Assembled (env : Env) (m : Miner double) (pool : CTxMemPool) (V : TxIndexMap)
    (chain : List CTransaction) (c : Collected double) : Prop where
  index : overlay c.mapTestPool V = c.vtx.foldl (applyTx env .inMempool) V
  records : Records env (overlay c.mapTestPool V) (chain ++ c.vtx)
  size : c.nBlockSize = 1000 + (c.vtx.map CTransaction.getSerializeSize).sum
  size_lt : c.vtx ≠ [] → c.nBlockSize < m.nBlockMaxSize
  sigOps : c.nBlockSigOps = 100 + total (applyTx env .inMempool) (sigOpsOf env pool) V c.vtx
  sigOps_lt : c.nBlockSigOps < MAX_BLOCK_SIGOPS
  fees : c.nFees = total (applyTx env .inMempool) (feeOf env pool) V c.vtx
  eligible : ∀ tx ∈ c.vtx, tx ∈ poolTxs pool ∧ Ordinary tx

variable {pool : CTxMemPool} {V : TxIndexMap} {chain : List CTransaction}

theorem Assembled.congr {c c' : Collected double} (h : Assembled env m pool V chain c)
    (hs : SameBlock c c') : Assembled env m pool V chain c' := by
  obtain ⟨hvtx, hpool, hsize, hops, hfees⟩ := hs
  constructor
  · rw [hpool, hvtx, h.index]
  · rw [hpool, hvtx]
    exact h.records
  · rw [hsize, hvtx, h.size]
  · rw [hsize, hvtx]
    exact h.size_lt
  · rw [hops, hvtx, h.sigOps]
  · rw [hops]
    exact h.sigOps_lt
  · rw [hfees, hvtx, h.fees]
  · rw [hvtx]
    exact h.eligible

theorem nBlockMaxSize_lt (m : Miner double) : m.nBlockMaxSize < 2 ^ 32 := by
  unfold Miner.nBlockMaxSize MAX_BLOCK_SIZE
  omega

/-- One more transaction: its id is new because what it spends was unspent. -/
theorem Assembled.add (hno : NoCollision env (chain ++ poolTxs pool)) {c c' : Collected double}
    (h : Assembled env m pool V chain c) {tx : CTransaction} (ha : Added env pool V c tx c')
    (htx : tx ∈ poolTxs pool ∧ Ordinary tx) (hlt : c'.nBlockSize < m.nBlockMaxSize) :
    Assembled env m pool V chain c' := by
  have hroom : tx.vout.length < 2 ^ 32 := by
    have hout := outputs_le_size tx
    have hmax := nBlockMaxSize_lt m
    have hsize := ha.size
    omega
  have hnew : tx.getHash env ∉ (chain ++ c.vtx).map (CTransaction.getHash env) := by
    refine h.records.new_id ha.spends_some ?_ ha.admits.unspent
    intro tx' hm hh
    refine hno tx' ?_ tx (List.mem_append_right _ htx.1) hh
    rcases List.mem_append.mp hm with hm | hm
    · exact List.mem_append_left _ hm
    · exact List.mem_append_right _ (h.eligible _ hm).1
  have hposted : Records env (applyTx env .inMempool (overlay c.mapTestPool V) tx) _ :=
    h.records.post rfl hroom hnew ha.admits.distinct ha.admits.unspent
  rw [List.append_assoc, ← ha.vtx, ← ha.index] at hposted
  refine ⟨?_, hposted, ?_, fun _ => hlt, ?_, ha.sigOps_lt, ?_, ?_⟩
  · rw [ha.index, h.index, ha.vtx, List.foldl_concat]
  · rw [ha.size, h.size, ha.vtx, List.map_append, List.sum_append, List.map_singleton,
      List.sum_singleton, Nat.add_assoc]
  · rw [ha.sigOps, h.sigOps, ha.vtx, total_concat, h.index, Nat.add_assoc]
  · rw [ha.fees, h.fees, ha.vtx, total_concat, h.index]
  · intro t ht
    rw [ha.vtx] at ht
    rcases List.mem_append.mp ht with ht | ht
    · exact h.eligible t ht
    · exact List.mem_singleton.mp ht ▸ htx

/-- What holds in every round: the block so far, and only eligible transactions on the queue. -/
structure Collecting (env : Env) (m : Miner double) (n : FullNode) (chain : List CTransaction)
    (c : Collected double) : Prop where
  assembled : Assembled env m n.mempool n.openTxDb.txIndex chain c
  queued : OnQueue (fun tx => tx ∈ poolTxs n.mempool ∧ Ordinary tx) c

theorem Collecting.step (hno : NoCollision env (chain ++ poolTxs n.mempool))
    {c c' : Collected double} (h : Collecting env m n chain c) {p : TxPriority double}
    (hp : p.ptx ∈ poolTxs n.mempool ∧ Ordinary p.ptx)
    (hc : collectTx env host m n fProofOfStake pindexPrev mapDependers c p = .ok c') :
    Collecting env m n chain c' := by
  unfold collectTx at hc
  split at hc
  · cases hc
    exact h
  · rename_i hpass
    have hsame := sortByFee_sameBlock (m := m) c p
    refine ⟨?_, connectTxInputs_queued (h.queued.sortByFee p) hc⟩
    rcases connectTxInputs_cases (getMinFee_pos ..) hp.2 hc with rfl | ha
    · exact h.assembled.congr hsame
    · refine (h.assembled.congr hsame).add hno ha hp ?_
      rw [ha.size, hsame.nBlockSize]
      simp only [passedOver, Bool.or_eq_true, not_or, decide_eq_true_eq] at hpass
      exact Nat.not_le.mp hpass.1.1.1

theorem Collecting.run (hno : NoCollision env (chain ++ poolTxs n.mempool)) (rounds : Nat)
    {c c' : Collected double} (h : Collecting env m n chain c)
    (hc : collect env host m n fProofOfStake pindexPrev mapDependers rounds c = .ok c') :
    Collecting env m n chain c' := by
  induction rounds generalizing c with
  | zero =>
    cases hc
    exact h
  | succ rounds ih =>
    rw [collect] at hc
    split at hc
    · cases hc
      exact h
    · rename_i front rest hqueue
      obtain ⟨c₁, hstep, hc⟩ := bind_ok.mp hc
      have hfront := h.queued.priority front (hqueue ▸ List.mem_cons_self)
      refine ih (Collecting.step hno ?_ hfront hstep) hc
      refine ⟨h.assembled.congr ⟨rfl, rfl, rfl, rfl, rfl⟩, ?_, h.queued.orphan⟩
      intro p hp
      have hp := (m.heap.pop_perm ..).mem_iff.mp hp
      exact h.queued.priority p (hqueue ▸ List.mem_cons_of_mem _ hp)

def Collected.pending (c : Collected double) : Nat :=
  c.vecPriority.length + c.vOrphan.countP fun o => decide (o.setDependsOn ≠ ∅)

/-- An orphan that gets on the queue waits for nothing any more. -/
theorem release_pending (hash : uint256) (c : Collected double) (porphan : Nat) :
    (release m hash c porphan).pending = c.pending := by
  unfold release
  split
  · rfl
  · rename_i orphan ho
    obtain ⟨hlt, hget⟩ := List.getElem?_eq_some_iff.mp ho
    split
    · rfl
    · rename_i hwaits
      have hpos : 0 < c.vOrphan.countP fun o => decide (o.setDependsOn ≠ ∅) :=
        List.countP_pos_iff.mpr ⟨orphan, List.mem_of_getElem? ho, decide_eq_true hwaits⟩
      simp only [ne_eq] at hpos
      simp only [Collected.pending, List.countP_set hlt, hget, decide_eq_true hwaits, if_true]
      by_cases hfree : orphan.setDependsOn.erase hash = ∅
      · rw [if_pos hfree, (m.heap.push_perm ..).length_eq, List.length_append]
        simp only [hfree, ne_eq, not_true_eq_false, decide_false, Bool.false_eq_true, if_false,
          List.length_singleton]
        omega
      · rw [if_neg hfree]
        simp only [hfree, ne_eq, not_false_eq_true, decide_true, if_true]
        omega

theorem foldl_release_pending (hash : uint256) (l : List Nat) (c : Collected double) :
    (l.foldl (release m hash) c).pending = c.pending := by
  induction l generalizing c with
  | nil => rfl
  | cons porphan l ih => exact (ih _).trans (release_pending hash c porphan)

theorem collectTx_pending {c c' : Collected double} {p : TxPriority double}
    (h : collectTx env host m n fProofOfStake pindexPrev mapDependers c p = .ok c') :
    c'.pending = c.pending := by
  have hsort : (sortByFee m c p).pending = c.pending := by
    unfold sortByFee
    split
    · simp only [Collected.pending, (m.heap.make_perm ..).length_eq]
    · rfl
  unfold collectTx at h
  split at h
  · cases h
    rfl
  · obtain rfl | ⟨_, _, _, _, _, -, -, -, -, -, -, -, rfl⟩ := connectTxInputs_ok h
    · exact hsort
    · exact (foldl_release_pending ..).trans hsort

/-- The bound on the rounds is large enough: the loop ends with an empty queue. -/
theorem collect_drains (rounds : Nat) {c c' : Collected double} (hr : c.pending ≤ rounds)
    (h : collect env host m n fProofOfStake pindexPrev mapDependers rounds c = .ok c') :
    c'.vecPriority = [] := by
  induction rounds generalizing c with
  | zero =>
    cases h
    unfold Collected.pending at hr
    exact List.eq_nil_of_length_eq_zero (by omega)
  | succ rounds ih =>
    rw [collect] at h
    split at h
    · rename_i hempty
      cases h
      exact hempty
    · rename_i front rest hqueue
      obtain ⟨c₁, hstep, h⟩ := bind_ok.mp h
      refine ih ?_ h
      rw [collectTx_pending hstep]
      simp only [Collected.pending, hqueue, List.length_cons] at hr
      simp only [Collected.pending, (m.heap.pop_perm ..).length_eq]
      omega

end Collect

section Scan

variable {double : Type} {env : Env} {host : Host} {m : Miner double} {n : FullNode}
  {P : CTransaction → Prop}

theorem mem_poolTxs {pool : CTxMemPool} {tx : CTransaction} :
    tx ∈ poolTxs pool ↔ ∃ h, pool.lookup h = some tx := by
  unfold poolTxs
  rw [List.mem_filterMap]
  constructor
  · rintro ⟨h, _, hl⟩
    exact ⟨h, hl⟩
  · rintro ⟨h, hl⟩
    refine ⟨h, ?_, hl⟩
    rw [List.mem_insertionSort]
    exact AList.mem_keys.mpr (AList.lookup_isSome.mp (Option.isSome_of_eq_some hl))

theorem forall_modify {vOrphan : List (COrphan double)} (h : ∀ o ∈ vOrphan, P o.ptx)
    {f : COrphan double → COrphan double} (hf : ∀ o, (f o).ptx = o.ptx) (i : Nat) :
    ∀ o ∈ vOrphan.modify i f, P o.ptx := by
  intro o hm
  obtain ⟨k, hk⟩ := List.mem_iff_getElem?.mp hm
  rw [List.getElem?_modify] at hk
  obtain ⟨o', ho', rfl⟩ := Option.map_eq_some_iff.mp hk
  have hp := h o' (List.mem_of_getElem? ho')
  split
  · rwa [hf]
  · exact hp

theorem scanInput_orphans {tx : CTransaction} (htx : P tx) {s s' : InputScan double} {txin : CTxIn}
    (h : scanInput env m n tx s txin = .ok s') (hs : ∀ o ∈ s.vOrphan, P o.ptx) :
    ∀ o ∈ s'.vOrphan, P o.ptx := by
  unfold scanInput at h
  split at h
  · cases h
    exact hs
  · split at h
    · cases h
      exact hs
    · split at h
      · cases h
        refine forall_modify ?_ (by exact fun _ => rfl) _
        split
        · exact hs
        · intro o ho
          rcases List.mem_append.mp ho with ho | ho
          · exact hs o ho
          · rw [List.mem_singleton.mp ho]
            exact htx
      · rw [check_bind, pure_ok] at h
        obtain ⟨_, rfl⟩ := h
        intro o ho
        simp only at ho
        split at ho
        · exact hs o (List.dropLast_subset _ ho)
        · exact hs o ho

/-- Everything the loop over the pool sorts away has the property. -/
structure PoolScanned (P : CTransaction → Prop) (q : PoolScan double) : Prop where
  priority : ∀ p ∈ q.vecPriority, P p.ptx
  orphan : ∀ o ∈ q.vOrphan, P o.ptx

theorem scanTx_scanned {q q' : PoolScan double} {tx : CTransaction}
    (htx : Ordinary tx → P tx) (h : scanTx env host m n q tx = .ok q') (hq : PoolScanned P q) :
    PoolScanned P q' := by
  unfold scanTx at h
  split at h
  · cases h
    exact hq
  · rename_i hkind
    simp only [Bool.or_eq_true, not_or, Bool.not_eq_true] at hkind
    have htx := htx ⟨hkind.1.1, hkind.1.2⟩
    obtain ⟨s, hs, h⟩ := bind_ok.mp h
    have horphans : ∀ o ∈ s.vOrphan, P o.ptx :=
      foldlM_keeps (fun s => ∀ o ∈ s.vOrphan, P o.ptx) _
        (fun _ _ _ _ h hs => scanInput_orphans htx h hs) _ _ hs hq.orphan
    split at h
    · rw [← pure_ok.mp h]
      exact ⟨hq.priority, horphans⟩
    · obtain ⟨nValueOut, _, h⟩ := bind_ok.mp h
      rw [← pure_ok.mp h]
      unfold enqueue
      simp only
      split
      · exact ⟨hq.priority, forall_modify horphans (by exact fun _ => rfl) _⟩
      · refine ⟨?_, horphans⟩
        intro p hp
        rcases List.mem_append.mp hp with hp | hp
        · exact hq.priority p hp
        · rw [List.mem_singleton.mp hp]
          exact htx

/-- The block that both loops collect, on any index that records the chain. -/
theorem collectPool_assembled {fProofOfStake : Bool} {pindexPrev : CBlockIndex}
    {chain : List CTransaction} (hrec : Records env n.openTxDb.txIndex chain)
    (hno : NoCollision env (chain ++ poolTxs n.mempool)) {c : Collected double}
    (h : collectPool env host m n fProofOfStake pindexPrev = .ok c) :
    Assembled env m n.mempool n.openTxDb.txIndex chain c := by
  obtain ⟨q, hscan, h⟩ := bind_ok.mp h
  have hq : PoolScanned (fun tx => tx ∈ poolTxs n.mempool ∧ Ordinary tx) q :=
    foldlM_keeps (PoolScanned _) _ (fun _ tx hm _ h hs => scanTx_scanned (fun ho => ⟨hm, ho⟩) h hs) _ _
      hscan ⟨nofun, nofun⟩
  have hsigops : 100 < MAX_BLOCK_SIGOPS := by decide
  refine (Collecting.run hno _ ⟨?_, ?_⟩ h).assembled
  · exact ⟨rfl, by simpa using hrec, rfl, fun hne => absurd rfl hne, rfl, hsigops, rfl, nofun⟩
  · exact ⟨fun p hp => hq.priority p ((m.heap.make_perm ..).mem_iff.mp hp), hq.orphan⟩

/-- The collecting loop leaves no candidate behind. -/
theorem collectPool_drains {fProofOfStake : Bool} {pindexPrev : CBlockIndex}
    {c : Collected double} (h : collectPool env host m n fProofOfStake pindexPrev = .ok c) :
    c.vecPriority = [] := by
  obtain ⟨q, _, h⟩ := bind_ok.mp h
  refine collect_drains _ ?_ h
  unfold Collected.pending
  rw [(m.heap.make_perm ..).length_eq]
  exact Nat.add_le_add_left (List.countP_le_length ..) _

/-- A template is a coinbase in front of what was collected. -/
theorem createNewBlock_ok {fProofOfStake : Bool} {block : CBlock} {nFees : Int}
    (h : createNewBlock env host m n fProofOfStake = .ok (block, nFees)) :
    ∃ pindexPrev c, n.pindexBest = some pindexPrev ∧
      collectPool env host m n fProofOfStake pindexPrev = .ok c ∧ nFees = c.nFees ∧
      block.vtx = coinbaseTx host m n fProofOfStake pindexPrev c.nFees :: c.vtx := by
  unfold createNewBlock at h
  split at h
  · cases h
  · rename_i pindexPrev hbest
    rw [check_bind] at h
    obtain ⟨c, hc, h⟩ := bind_ok.mp h.2
    obtain ⟨rfl, rfl⟩ := Prod.mk.inj (pure_ok.mp h)
    refine ⟨pindexPrev, c, hbest, hc, rfl, ?_⟩
    cases fProofOfStake <;> rfl

/-- `CreateNewBlock` succeeds when the collecting loop does. -/
theorem createNewBlock_of_collectPool {pindexPrev : CBlockIndex}
    (hbest : n.pindexBest = some pindexPrev)
    (hsize : (pushInt64 (pindexPrev.nHeight + 1) ++ m.COINBASE_FLAGS).length ≤ 100)
    {c : Collected double} (hc : collectPool env host m n true pindexPrev = .ok c) :
    ∃ block, createNewBlock env host m n true = .ok (block, c.nFees) ∧
      block.vtx = coinbaseTx host m n true pindexPrev c.nFees :: c.vtx ∧
      block.nBits = getNextTargetRequired env (some pindexPrev) true := by
  unfold createNewBlock
  rw [hbest]
  simp only [check, Bool.not_true, Bool.false_or, decide_eq_true hsize, if_true, hc]
  exact ⟨_, rfl, rfl, rfl⟩

theorem coinbaseTx_isCoinBase (host : Host) (m : Miner double) (n : FullNode)
    (fProofOfStake : Bool) (pindexPrev : CBlockIndex) (nFees : Int) :
    (coinbaseTx host m n fProofOfStake pindexPrev nFees).isCoinBase = true := by
  cases fProofOfStake <;> rfl

/-- The transactions of a template, all but its coinbase, next to the pool and the chain they
are for. Fees and signature operations are those of each transaction on the index it
meets, with the ones before it posted. A pool transaction the chain has too is not waited for. -/
structure Template (env : Env) (m : Miner double) (n : FullNode) (chain txs : List CTransaction)
    (nFees : Int) : Prop where
  from_pool : ∀ tx ∈ txs, n.mempool.lookup (tx.getHash env) = some tx
  ordinary : ∀ tx ∈ txs, Ordinary tx
  once : (txs.map (CTransaction.getHash env)).Nodup
  parents_first : ∀ pre tx post, txs = pre ++ tx :: post → ∀ o ∈ spends tx, ∀ parent,
    n.mempool.lookup o.hash = some parent → parent ∉ chain → parent ∈ pre
  spent_once : (txs.flatMap spends).Nodup
  unspent : ∀ tx ∈ txs, ∀ o ∈ spends tx, o ∉ chain.flatMap spends
  fees : nFees = total (applyTx env .inMempool) (feeOf env n.mempool) n.openTxDb.txIndex txs
  size : txs ≠ [] → 1000 + (txs.map CTransaction.getSerializeSize).sum < m.nBlockMaxSize
  size_le : 1000 + (txs.map CTransaction.getSerializeSize).sum ≤ m.nBlockMaxSize
  sigOps : 100 + total (applyTx env .inMempool) (sigOpsOf env n.mempool) n.openTxDb.txIndex txs
    < MAX_BLOCK_SIGOPS

theorem Assembled.template {chain : List CTransaction} {c : Collected double}
    (hp : PoolIndexed env n.mempool) (hno : NoCollision env (chain ++ poolTxs n.mempool))
    (h : Assembled env m n.mempool n.openTxDb.txIndex chain c) :
    Template env m n chain c.vtx c.nFees := by
  have hpool : ∀ tx ∈ c.vtx, n.mempool.lookup (tx.getHash env) = some tx := by
    intro tx hm
    obtain ⟨k, hk⟩ := mem_poolTxs.mp (h.eligible tx hm).1
    rwa [hp.own_hash hk]
  have hids := h.records.ids
  have honce := h.records.sound.once
  rw [List.map_append, List.nodup_append] at hids
  rw [List.flatMap_append, List.nodup_append] at honce
  have hlt : c.vtx ≠ [] → 1000 + (c.vtx.map CTransaction.getSerializeSize).sum < m.nBlockMaxSize :=
    fun hne => h.size ▸ h.size_lt hne
  refine ⟨hpool, fun tx hm => (h.eligible tx hm).2, hids.2.1, ?_, honce.2.1, ?_, h.fees, hlt, ?_,
    h.sigOps ▸ h.sigOps_lt⟩
  · intro pre tx post hsplit o ho parent hparent hchain
    obtain ⟨prev, hprev, hh, _⟩ := h.records.sound.earlier (chain ++ pre) tx post
      (by rw [hsplit, List.append_assoc]) o ho
    have hparent' : parent ∈ poolTxs n.mempool := mem_poolTxs.mpr ⟨_, hparent⟩
    have hsame := hh.trans (hp.own_hash hparent).symm
    rcases List.mem_append.mp hprev with hprev | hprev
    · -- the chain has a transaction of that id, which can only be the parent
      have := hno prev (List.mem_append_left _ hprev) parent (List.mem_append_right _ hparent') hsame
      exact absurd (this ▸ hprev) hchain
    · have hmem : prev ∈ c.vtx := hsplit ▸ List.mem_append_left _ hprev
      have := hno prev (List.mem_append_right _ (h.eligible prev hmem).1) parent
        (List.mem_append_right _ hparent') hsame
      exact this ▸ hprev
  · intro tx hm o ho hspent
    exact honce.2.2 o hspent o (List.mem_flatMap.mpr ⟨tx, hm, ho⟩) rfl
  · by_cases hne : c.vtx = []
    · rw [hne]
      exact Nat.le_max_left ..
    · exact (hlt hne).le

/-- Every template connects, whatever the order of the queue. -/
theorem template_connects {fProofOfStake : Bool} {chain : List CTransaction}
    (hp : PoolIndexed env n.mempool) (hrec : Records env n.openTxDb.txIndex chain)
    (hno : NoCollision env (chain ++ poolTxs n.mempool)) {block : CBlock} {nFees : Int}
    (h : createNewBlock env host m n fProofOfStake = .ok (block, nFees)) :
    ∃ coinbase txs, block.vtx = coinbase :: txs ∧ coinbase.isCoinBase = true ∧
      Template env m n chain txs nFees := by
  obtain ⟨pindexPrev, c, _, hc, rfl, hvtx⟩ := createNewBlock_ok h
  exact ⟨_, c.vtx, hvtx, coinbaseTx_isCoinBase ..,
    (collectPool_assembled hrec hno hc).template hp hno⟩

end Scan

/-- In a reached state the index records the transactions of the best chain. -/
theorem Reached.records {env : Env} {T : ChainTree env} {s : State} (h : Reached T.toBlockTree s)
    {p : CBlockIndex} (hp : s.pindexBest = some p) :
    Records env s.openTxDb.txIndex (connectedTxs T p) := by
  obtain ⟨hmem, hcommitted⟩ := h.recorded.at_best hp
  have hrec := (chain_records hmem hcommitted.valid).records
  rw [← hcommitted.index] at hrec
  exact hrec

namespace Sample

/-! A template for the pool with a payment and one that spends its change. Rational numbers
serve as floating point ones and sorting as the heap. -/

def rationals : Doubles Rat where
  zero := 0
  addAge d nValueIn nConf := d + nValueIn * nConf
  perByte d nTxSize := d / nTxSize
  perKb nFee nTxSize := nFee / (nTxSize / 1000)
  less d k := decide (d < k)

/-- The order of `TxPriorityCompare`, greatest first. -/
def before (byFee : Bool) (a b : TxPriority Rat) : Prop :=
  if byFee then b.dFeePerKb < a.dFeePerKb ∨ b.dFeePerKb = a.dFeePerKb ∧ b.dPriority ≤ a.dPriority
  else b.dPriority < a.dPriority ∨ b.dPriority = a.dPriority ∧ b.dFeePerKb ≤ a.dFeePerKb

instance (byFee : Bool) : DecidableRel (before byFee) := fun a b => by
  unfold before
  infer_instance

theorem sorted_perm (byFee : Bool) (l : List (TxPriority Rat)) :
    (l.insertionSort (before byFee)).Perm l := List.perm_insertionSort _ l

theorem rest_perm (_ : Bool) (_ : TxPriority Rat) (rest : List (TxPriority Rat)) :
    rest.Perm rest := .refl rest

def sorting : Heap (TxPriority Rat) where
  make byFee l := l.insertionSort (before byFee)
  push byFee l := l.insertionSort (before byFee)
  pop _ _ rest := rest
  make_perm := sorted_perm
  push_perm := sorted_perm
  pop_perm := rest_perm

def miner (blockmaxsize : Int) : Miner Rat where
  blockmaxsize := blockmaxsize
  reservedKey := List.replicate 20 7
  doubles := rationals
  heap := sorting

theorem noBlocks_hash {h : uint256} {p : CBlockIndex} (hp : none = some p) :
    p.getBlockHash = h := by cases hp

theorem noBlocks_parent {f : BlockFields} {p : CBlockIndex}
    (hp : none = some (CBlockIndex.child f p)) : none = some p := by cases hp

def noBlocks : BlockMap where
  find _ := none
  hash_eq := noBlocks_hash
  parent := noBlocks_parent

def minerNode : FullNode :=
  { poolNode with
    mapBlockIndex := noBlocks
    setStakeSeen := ∅
    hashSyncCheckpoint := 0
    hashPendingCheckpoint := 0
    hashInvalidCheckpoint := 0 }

def fundChain : List CTransaction := [coinbase 999 10000, fund]

theorem minerNode_index (h : uint256) : minerNode.openTxDb.txIndex h =
    if h = 10 then
      some (.fresh (fundIndex.posOf (firstTxPos fundBlock fundIndex false)) 2)
    else none := rfl

/-- The records of a coinbase and the transaction that spends it. -/
theorem records_of_spent {env : Env} {V : TxIndexMap} {older tx : CTransaction} {pos : CDiskTxPos}
    (hindex : ∀ h, V h = if h = tx.getHash env then some (.fresh pos tx.vout.length) else none)
    (hbase : older.isCoinBase = true) (hspends : spends tx = [⟨older.getHash env, 0⟩])
    (hout : 0 < older.vout.length) (hne : older.getHash env ≠ tx.getHash env) :
    Records env V [older, tx] where
  ids := by simpa using hne
  absent := by
    intro h hm
    rw [hindex, if_neg]
    rintro rfl
    exact hm (by simp)
  unspent := by
    intro o ho
    obtain ⟨idx, hidx, hslot⟩ := ho
    rw [hindex] at hidx
    split at hidx
    · rename_i hh
      cases hidx
      have hlt : o.n.toNat < tx.vout.length := by
        simpa [CTxIndex.fresh] using (List.getElem?_eq_some_iff.mp hslot).1
      refine ⟨?_, tx, by simp, hh.symm, hlt⟩
      intro hm
      rw [List.flatMap_cons, spends, if_pos hbase, List.nil_append, List.flatMap_singleton,
        hspends, List.mem_singleton] at hm
      rw [hm] at hh
      exact hne hh
    · cases hidx
  sound := by
    have hnone : spends older = [] := if_pos hbase
    constructor
    · simp [hnone, hspends]
    · intro pre t post h o ho
      rcases pre with _ | ⟨first, _ | ⟨second, pre⟩⟩
      · obtain ⟨rfl, -⟩ := List.cons.inj h
        rw [hnone] at ho
        cases ho
      · obtain ⟨holder, h⟩ := List.cons.inj h
        obtain ⟨rfl, -⟩ := List.cons.inj h
        rw [hspends] at ho
        obtain rfl := List.mem_singleton.mp ho
        exact ⟨older, List.mem_singleton.mpr holder, rfl, hout⟩
      · simp at h

theorem fundChain_records : Records poolEnv minerNode.openTxDb.txIndex fundChain :=
  records_of_spent minerNode_index rfl rfl (by decide) (by decide)

end Sample

/-- The payment and the one that spends its change, in this order. -/
theorem template_connects_payment :
    ∃ block coinbase txs, createNewBlock Sample.poolEnv Sample.host (Sample.miner 250000)
        Sample.minerNode true = .ok (block, 400) ∧ block.vtx = coinbase :: txs ∧
      txs = [Sample.payment, Sample.change] ∧
      Template Sample.poolEnv (Sample.miner 250000) Sample.minerNode Sample.fundChain txs 400 := by
  have heval : (createNewBlock Sample.poolEnv Sample.host (Sample.miner 250000) Sample.minerNode
      true).map (fun r => (r.1.vtx.tail, r.2)) = .ok ([Sample.payment, Sample.change], 400) := by
    decide +kernel
  obtain ⟨⟨block, nFees⟩, h, hr⟩ := map_ok.mp heval
  obtain ⟨htail, rfl⟩ := Prod.mk.inj hr
  obtain ⟨coinbase, txs, hvtx, _, ht⟩ := template_connects
    (runPool_poolOf Sample.filling (by decide)).indexed Sample.fundChain_records
    (by decide) h
  refine ⟨block, coinbase, txs, h, hvtx, ?_, ht⟩
  rwa [hvtx] at htail

/-- With the smallest block size allowed nothing fits, and the room set aside is all of it. -/
theorem template_of_minimum_size :
    PoolIndexed Sample.poolEnv Sample.minerNode.mempool ∧
      ∃ block, createNewBlock Sample.poolEnv Sample.host (Sample.miner 1000) Sample.minerNode true =
          .ok (block, 0) ∧
        ¬ 1000 + (block.vtx.tail.map CTransaction.getSerializeSize).sum <
          (Sample.miner 1000).nBlockMaxSize := by
  refine ⟨(runPool_poolOf Sample.filling (by decide)).indexed, ?_⟩
  have heval : (createNewBlock Sample.poolEnv Sample.host (Sample.miner 1000) Sample.minerNode
      true).map (fun r => (r.1.vtx.tail, r.2)) = .ok ([], 0) := by decide
  obtain ⟨⟨block, nFees⟩, h, hr⟩ := map_ok.mp heval
  obtain ⟨htail, rfl⟩ := Prod.mk.inj hr
  refine ⟨block, h, ?_⟩
  rw [htail]
  decide

end Triangles
