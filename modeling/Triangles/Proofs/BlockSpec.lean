import Triangles.Model.Node
import Triangles.Proofs.ConnectSpec

/-! What a successful `ConnectBlock` or `DisconnectBlock` means for the transaction index. -/

namespace Triangles.Ledger

open Outcome Trace CTransaction

/-- What `CheckBlock` says about the transactions of a block. -/
structure Layout (env : Env) (block : CBlock) : Prop where
  coinbase : ∃ coinbase rest, block.vtx = coinbase :: rest ∧ coinbase.isCoinBase = true ∧
    ∀ tx ∈ rest, tx.isCoinBase = false
  valid : ∀ tx ∈ block.vtx, tx.checkTransaction = .ok ()
  distinct : (block.vtx.map (CTransaction.getHash env)).Nodup
  stake : block.isProofOfStake = true → ∃ coinbase coinstake rest,
    block.vtx = coinbase :: coinstake :: rest ∧ coinbase.valueOut = 0 ∧
      coinstake.isCoinStake = true ∧ ∀ tx ∈ rest, tx.isCoinStake = false

theorem empty_output_value {tx : CTransaction}
    (h : (match tx.vout with | [txout] => txout.isEmpty | _ => false) = true) :
    tx.valueOut = 0 := by
  split at h
  · rename_i txout hv
    simp only [CTxOut.isEmpty, Bool.and_eq_true, beq_iff_eq] at h
    simp [valueOut, hv, h.1]
  · cases h

theorem checkStakeLayout_spec {env : Env} {block : CBlock} {fCheckSig : Bool}
    (h : block.checkStakeLayout env fCheckSig = .ok ()) : ∃ coinbase coinstake rest,
      block.vtx = coinbase :: coinstake :: rest ∧ coinbase.valueOut = 0 ∧
        coinstake.isCoinStake = true ∧ ∀ tx ∈ rest, tx.isCoinStake = false := by
  unfold CBlock.checkStakeLayout at h
  split at h
  · rename_i coinbase coinstake rest hv
    simp only [check_bind] at h
    obtain ⟨hempty, hstake, hrest, _, _⟩ := h
    refine ⟨coinbase, coinstake, rest, hv, empty_output_value hempty, hstake, ?_⟩
    intro tx hm
    simpa using List.all_eq_true.mp hrest tx hm
  · cases h

theorem checkBlock_spec {env : Env} {nAdjustedTime : Int} {block : CBlock} {pow root sig : Bool}
    (h : block.checkBlock env nAdjustedTime pow root sig = .ok ()) : Layout env block := by
  simp only [CBlock.checkBlock, check_bind] at h
  obtain ⟨_, _, _, hfirst, hothers, _, h⟩ := h
  have hstake : block.isProofOfStake = true → block.checkStakeLayout env sig = .ok () := by
    intro hs
    simp only [hs, ↓reduceIte, bind_ok] at h
    obtain ⟨_, hl, _⟩ := h
    exact hl
  have hrest : block.vtx.forM block.checkBlockTx = .ok () ∧
      (block.vtx.map (CTransaction.getHash env)).Nodup := by
    cases hs : block.isProofOfStake <;>
      simp only [hs, Bool.false_eq_true, ↓reduceIte, bind_ok, check_ok, decide_eq_true_eq] at h
    · obtain ⟨_, hl, _, hd, _⟩ := h
      exact ⟨hl, hd⟩
    · obtain ⟨_, _, _, hl, _, hd, _⟩ := h
      exact ⟨hl, hd⟩
  refine ⟨?_, ?_, hrest.2, fun hs => checkStakeLayout_spec (hstake hs)⟩
  · cases hv : block.vtx with
    | nil => simp [hv] at hfirst
    | cons coinbase rest =>
      refine ⟨coinbase, rest, rfl, by simpa [hv] using hfirst, ?_⟩
      intro tx hm
      rw [hv, List.tail_cons] at hothers
      simpa using List.all_eq_true.mp hothers tx hm
  · intro tx hm
    have htx := forM_ok.mp hrest.1 tx hm
    unfold CBlock.checkBlockTx at htx
    split at htx
    · cases htx
    · rename_i u hu
      exact hu

/-- What the checks of `ConnectBlock` leave of a block that met the index `V`. -/
structure Connects (env : Env) (ctx : Ctx) (V : TxIndexMap) (block : CBlock)
    (pindex : CBlockIndex) (acc : ConnectAcc) : Prop where
  layout : Layout env block
  book : bookOf V acc = posted env V block pindex
  admits : ∀ x ∈ trace (Book.post env pindex) (opened V block pindex) block.vtx,
    Admits env ctx.mempool x.1.index x.2
  overwrites : ∀ tx ∈ block.vtx, NoUnspent V (tx.getHash env)
  valueOut : acc.nValueOut =
    total (Book.post env pindex) (fun _ tx => tx.valueOut) (opened V block pindex) block.vtx
  valueIn : acc.nValueIn = total (Book.post env pindex)
    (fun b tx => Ledger.valueIn env ctx.mempool b.index tx) (opened V block pindex) block.vtx
  fees : acc.nFees = total (Book.post env pindex)
    (fun b tx => feeOf env ctx.mempool b.index tx) (opened V block pindex) block.vtx

section Loop

variable {env : Env} {ctx : Ctx} {txdb : CTxDB} {pindex : CBlockIndex}

/-- The transaction loop, from wherever it has come. -/
theorem connect_loop_spec {vtx : List CTransaction} {acc acc' : ConnectAcc}
    (h : vtx.foldlM (connectTx env ctx txdb pindex false) acc = .ok acc') :
    bookOf txdb.txIndex acc' = vtx.foldl (Book.post env pindex) (bookOf txdb.txIndex acc) ∧
      ∀ x ∈ trace (Book.post env pindex) (bookOf txdb.txIndex acc) vtx,
        Admits env ctx.mempool x.1.index x.2 ∧ NoUnspent txdb.txIndex (x.2.getHash env) :=
  (foldlM_refines (I := fun _ => True) (A := bookOf txdb.txIndex)
    (P := fun b tx => Admits env ctx.mempool b.index tx ∧ NoUnspent txdb.txIndex (tx.getHash env))
    (fun _ _ _ hr _ => ⟨trivial, (connectTx_spec hr).book, (connectTx_spec hr).admits,
      (connectTx_spec hr).overwrites⟩) h trivial).2

/-- A counter of the loop ends at the total of what its rounds add. -/
theorem connect_loop_total {vtx : List CTransaction} {acc acc' : ConnectAcc}
    {q : ConnectAcc → Int} {d : Book → CTransaction → Int}
    (hq : ∀ acc tx acc', Round env ctx.mempool pindex txdb.txIndex acc tx acc' →
      q acc' = q acc + d (bookOf txdb.txIndex acc) tx)
    (h : vtx.foldlM (connectTx env ctx txdb pindex false) acc = .ok acc') :
    q acc' = q acc + total (Book.post env pindex) d (bookOf txdb.txIndex acc) vtx :=
  foldlM_total (I := fun _ => True)
    (fun _ _ _ hr _ => ⟨trivial, (connectTx_spec hr).book, hq _ _ _ (connectTx_spec hr)⟩) h trivial

theorem connectBlockChecks_iff {block : CBlock} {acc : ConnectAcc} :
    connectBlockChecks env ctx txdb block pindex false = .ok acc ↔
    block.checkBlock env ctx.nAdjustedTime true true false = .ok () ∧
    block.vtx.foldlM (connectTx env ctx txdb pindex false)
      { nTxPos := firstTxPos block pindex false } = .ok acc ∧
    (block.isProofOfWork = true → checkPowReward ctx block acc.nFees = .ok ()) ∧
    (block.isProofOfStake = true →
      checkStakeReward env txdb block acc.nStakeReward acc.nFees = .ok ()) := by
  simp only [connectBlockChecks, bind_ok, Bool.not_false]
  cases hs : block.isProofOfStake with
  | false =>
    have hw : block.isProofOfWork = true := by simp [CBlock.isProofOfWork, hs]
    simp only [hw, Bool.false_eq_true, ↓reduceIte, bind_ok, pure_ok]
    constructor
    · intro h
      obtain ⟨_, hcheck, acc', hloop, _, hr, rfl⟩ := h
      exact ⟨hcheck, hloop, fun _ => hr, by simp⟩
    · intro h
      obtain ⟨hcheck, hloop, hr, _⟩ := h
      exact ⟨(), hcheck, acc, hloop, (), hr trivial, rfl⟩
  | true =>
    have hw : block.isProofOfWork = false := by simp [CBlock.isProofOfWork, hs]
    simp only [hw, Bool.false_eq_true, ↓reduceIte, bind_ok, pure_ok]
    constructor
    · intro h
      obtain ⟨_, hcheck, acc', hloop, _, hr, rfl⟩ := h
      exact ⟨hcheck, hloop, by simp, fun _ => hr⟩
    · intro h
      obtain ⟨hcheck, hloop, _, hr⟩ := h
      exact ⟨(), hcheck, acc, hloop, (), hr trivial, rfl⟩

theorem connectBlockChecks_spec {block : CBlock} {acc : ConnectAcc}
    (h : connectBlockChecks env ctx txdb block pindex false = .ok acc) :
    Connects env ctx txdb.txIndex block pindex acc := by
  obtain ⟨hcheck, hloop, _, _⟩ := connectBlockChecks_iff.mp h
  obtain ⟨hbook, htrace⟩ := connect_loop_spec hloop
  refine ⟨checkBlock_spec hcheck, hbook, fun x hx => (htrace x hx).1, ?_, ?_, ?_, ?_⟩
  · intro tx hm
    rw [← trace_items (Book.post env pindex) (opened txdb.txIndex block pindex) block.vtx] at hm
    obtain ⟨x, hx, rfl⟩ := List.mem_map.mp hm
    exact (htrace x hx).2
  · exact (connect_loop_total (fun _ _ _ hr => hr.valueOut) hloop).trans (Int.zero_add _)
  · exact (connect_loop_total (fun _ _ _ hr => hr.valueIn) hloop).trans (Int.zero_add _)
  · exact (connect_loop_total (fun _ _ _ hr => hr.fees) hloop).trans (Int.zero_add _)

end Loop

section Writes

variable {env : Env}

theorem write_entries_spec (l : List (Sigma fun _ : uint256 => CTxIndex)) (txdb : CTxDB)
    (hd : l.NodupKeys) :
    (l.foldl (fun txdb e => txdb.updateTxIndex e.1 e.2) txdb).txIndex =
      fun h => match l.dlookup h with
        | some txindex => some txindex
        | none => txdb.txIndex h := by
  induction l generalizing txdb with
  | nil => rfl
  | cons e l ih =>
    obtain ⟨k, v⟩ := e
    obtain ⟨hk, hd⟩ := List.nodupKeys_cons.mp hd
    rw [List.foldl_cons, ih _ hd]
    funext h
    by_cases hh : k = h
    · subst hh
      rw [List.dlookup_eq_none.mpr hk, List.dlookup_cons_eq]
      simp
    · rw [List.dlookup_cons_ne l ⟨k, v⟩ (Ne.symm hh)]
      simp [Function.update_of_ne (Ne.symm hh)]

/-- Writing the queued changes turns the overlay into the index. -/
theorem writeQueued_spec (txdb : CTxDB) (queued : QueuedChanges) :
    (writeQueued txdb queued).txIndex = overlay queued txdb.txIndex :=
  write_entries_spec queued.entries txdb queued.nodupKeys

theorem txIndex_writePrevIndex (s : State) (pindex : CBlockIndex) (h : uint256) :
    (s.writePrevIndex pindex h).txdb.txIndex = s.txdb.txIndex := by
  unfold State.writePrevIndex
  cases pindex.pprev <;> simp

theorem txIndex_afterConnect (block : CBlock) (pindex : CBlockIndex) (acc : ConnectAcc)
    (s : State) :
    (s.afterConnect env block pindex false acc).txdb.txIndex =
      overlay acc.mapQueuedChanges s.txdb.txIndex := by
  simp only [State.afterConnect, Bool.false_eq_true, ↓reduceIte, txIndex_writePrevIndex,
    writeQueued_spec, CTxDB.txIndex_writeBlockIndex, State.setMint]

/-- A successful `ConnectBlock` posts the block to the index. -/
theorem connectBlock_spec {host : Host} {block : CBlock} {pindex : CBlockIndex} {s t : State}
    (h : connectBlock env host block pindex false s = .ok () t) :
    ∃ acc, connectBlockChecks env (s.ctx host) s.txdb block pindex false = .ok acc ∧
      t = s.afterConnect env block pindex false acc ∧
      t.txdb.txIndex = (posted env s.txdb.txIndex block pindex).index := by
  unfold connectBlock at h
  split at h
  · cases h
  · rename_i acc hacc
    cases h
    refine ⟨acc, hacc, rfl, ?_⟩
    rw [txIndex_afterConnect, ← (connectBlockChecks_spec hacc).book]
    rfl

theorem disconnectInput_spec {txin : CTxIn} {db db' : CTxDB}
    (h : disconnectInput txin db = .ok () db') :
    HasSlot db.txIndex txin.prevout ∧ db'.txIndex = mark .null db.txIndex txin.prevout := by
  unfold disconnectInput at h
  rw [CTxDB.readTxIndex_eq] at h
  cases hv : db.txIndex txin.prevout.hash with
  | none => simp [hv] at h
  | some txindex =>
    simp only [hv] at h
    split at h
    · rename_i hlt
      cases h
      refine ⟨⟨txindex, hv, hlt⟩, ?_⟩
      rw [CTxDB.txIndex_updateTxIndex, mark, hv]
      rfl
    · cases h

theorem disconnectInput_succeeds {txin : CTxIn} {db : CTxDB}
    (h : HasSlot db.txIndex txin.prevout) : ∃ db', disconnectInput txin db = .ok () db' := by
  obtain ⟨idx, hv, hn⟩ := h
  unfold disconnectInput
  rw [CTxDB.readTxIndex_eq, hv]
  simp [hn]

theorem disconnect_loop_spec {vin : List CTxIn} {db db' : CTxDB}
    (h : vin.forM disconnectInput db = .ok () db') :
    (∀ o ∈ vin.map CTxIn.prevout, HasSlot db.txIndex o) ∧
      db'.txIndex = markAll .null db.txIndex (vin.map CTxIn.prevout) := by
  induction vin generalizing db with
  | nil =>
    cases h
    exact ⟨by simp, rfl⟩
  | cons txin vin ih =>
    obtain ⟨_, db₁, h₁, h₂⟩ := run_bind_ok.mp h
    obtain ⟨hslot, hmark⟩ := disconnectInput_spec h₁
    obtain ⟨hslots, hrest⟩ := ih h₂
    rw [hmark] at hslots hrest
    refine ⟨?_, hrest⟩
    intro o ho
    rcases List.mem_cons.mp ho with rfl | ho
    · exact hslot
    · exact (hslots o ho).of_mark

theorem disconnect_loop_succeeds (vin : List CTxIn) (db : CTxDB)
    (h : ∀ o ∈ vin.map CTxIn.prevout, HasSlot db.txIndex o) :
    ∃ db', vin.forM disconnectInput db = .ok () db' := by
  induction vin generalizing db with
  | nil => exact ⟨db, rfl⟩
  | cons txin vin ih =>
    obtain ⟨db₁, h₁⟩ := disconnectInput_succeeds (h txin.prevout (by simp))
    obtain ⟨db', h₂⟩ := ih db₁ (by
      intro o ho
      rw [(disconnectInput_spec h₁).2]
      exact (h o (by simp [List.mem_map.mp ho])).mark)
    exact ⟨db', run_bind_ok.mpr ⟨(), db₁, h₁, h₂⟩⟩

theorem disconnectInputs_spec {tx : CTransaction} {db db' : CTxDB}
    (h : disconnectInputs env tx db = .ok () db') :
    (∀ o ∈ spends tx, HasSlot db.txIndex o) ∧ db'.txIndex = undoTx env db.txIndex tx := by
  unfold disconnectInputs at h
  cases hc : tx.isCoinBase with
  | true =>
    simp only [hc, Bool.not_true, Bool.false_eq_true, ↓reduceIte] at h
    cases h
    simp [undoTx, spends, hc, markAll]
  | false =>
    simp only [hc, Bool.not_false, ↓reduceIte] at h
    obtain ⟨_, db₁, h₁, h₂⟩ := run_bind_ok.mp h
    cases h₂
    obtain ⟨hslots, hmark⟩ := disconnect_loop_spec h₁
    rw [spends_of_not_coinBase hc]
    exact ⟨hslots, by simp [undoTx, spends, hc, hmark]⟩

theorem disconnectInputs_succeeds (env : Env) {tx : CTransaction} {db : CTxDB}
    (h : ∀ o ∈ spends tx, HasSlot db.txIndex o) :
    ∃ db', disconnectInputs env tx db = .ok () db' := by
  unfold disconnectInputs
  cases hc : tx.isCoinBase with
  | true => exact ⟨_, rfl⟩
  | false =>
    rw [spends_of_not_coinBase hc] at h
    obtain ⟨db₁, h₁⟩ := disconnect_loop_succeeds _ _ h
    simp only [Bool.not_false, ↓reduceIte]
    exact ⟨_, run_bind_ok.mpr ⟨(), db₁, h₁, rfl⟩⟩

theorem disconnect_all_spec {txs : List CTransaction} {db db' : CTxDB}
    (h : txs.forM (disconnectInputs env) db = .ok () db') :
    (∀ x ∈ trace (undoTx env) db.txIndex txs, ∀ o ∈ spends x.2, HasSlot x.1 o) ∧
      db'.txIndex = txs.foldl (undoTx env) db.txIndex := by
  induction txs generalizing db with
  | nil =>
    cases h
    exact ⟨by simp, rfl⟩
  | cons tx txs ih =>
    obtain ⟨_, db₁, h₁, h₂⟩ := run_bind_ok.mp h
    obtain ⟨hslot, hundo⟩ := disconnectInputs_spec h₁
    obtain ⟨hslots, hrest⟩ := ih h₂
    rw [hundo] at hslots hrest
    refine ⟨?_, hrest⟩
    intro x hx
    rcases List.mem_cons.mp hx with rfl | hx
    · exact hslot
    · exact hslots x hx

theorem disconnect_all_succeeds (txs : List CTransaction) (db : CTxDB)
    (h : ∀ x ∈ trace (undoTx env) db.txIndex txs, ∀ o ∈ spends x.2, HasSlot x.1 o) :
    ∃ db', txs.forM (disconnectInputs env) db = .ok () db' := by
  induction txs generalizing db with
  | nil => exact ⟨db, rfl⟩
  | cons tx txs ih =>
    obtain ⟨db₁, h₁⟩ := disconnectInputs_succeeds env (h (db.txIndex, tx) (by simp))
    obtain ⟨db', h₂⟩ := ih db₁ (by
      intro x hx
      rw [(disconnectInputs_spec h₁).2] at hx
      exact h x (by simp [hx]))
    exact ⟨db', run_bind_ok.mpr ⟨(), db₁, h₁, h₂⟩⟩

/-- A successful `DisconnectBlock` undoes the transactions in reverse order, and changes
nothing but the database and the wallets. -/
theorem disconnectBlock_spec {block : CBlock} {pindex : CBlockIndex} {s t : State}
    (h : disconnectBlock env block pindex s = .ok () t) :
    (∀ x ∈ trace (undoTx env) s.txdb.txIndex block.vtx.reverse,
      ∀ o ∈ spends x.2, HasSlot x.1 o) ∧
    t.txdb.txIndex = block.vtx.reverse.foldl (undoTx env) s.txdb.txIndex ∧
    t = { s with txdb := t.txdb, wallets := syncWithWallets env block false false s.wallets } := by
  obtain ⟨_, s₁, h₁, h₂⟩ := run_bind_ok.mp h
  obtain ⟨_, s₂, h₂, h₃⟩ := run_bind_ok.mp h₂
  cases h₂
  cases h₃
  unfold onTxDb at h₁
  split at h₁
  · rename_i u db hdb
    cases h₁
    obtain ⟨hslots, hindex⟩ := disconnect_all_spec hdb
    refine ⟨hslots, ?_, ?_⟩
    · simp only [txIndex_writePrevIndex]
      exact hindex
    · unfold State.writePrevIndex
      cases pindex.pprev <;> rfl
  · cases h₁

theorem disconnectBlock_succeeds {block : CBlock} (pindex : CBlockIndex) {s : State}
    (h : ∀ x ∈ trace (undoTx env) s.txdb.txIndex block.vtx.reverse,
      ∀ o ∈ spends x.2, HasSlot x.1 o) :
    ∃ t, disconnectBlock env block pindex s = .ok () t := by
  obtain ⟨db, hdb⟩ := disconnect_all_succeeds _ _ h
  refine ⟨_, run_bind_ok.mpr ⟨(), { s with txdb := db }, ?_, rfl⟩⟩
  simp [onTxDb, hdb]

end Writes

end Triangles.Ledger
