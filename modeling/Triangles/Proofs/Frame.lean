import Triangles.Proofs.Undo

/-! What a call leaves alone: while the database transaction is pending nothing is committed
and the chain in memory does not change. -/

namespace Triangles

open Outcome Batch

/-- The chain in memory and the memory pool are the same. -/
structure SameChain (s t : State) : Prop where
  pnext : t.pnext = s.pnext
  pindexGenesisBlock : t.pindexGenesisBlock = s.pindexGenesisBlock
  pindexBest : t.pindexBest = s.pindexBest
  hashBestChain : t.hashBestChain = s.hashBestChain
  nBestHeight : t.nBestHeight = s.nBestHeight
  nBestChainTrust : t.nBestChainTrust = s.nBestChainTrust
  mempool : t.mempool = s.mempool

theorem SameChain.refl (s : State) : SameChain s s := ⟨rfl, rfl, rfl, rfl, rfl, rfl, rfl⟩

theorem SameChain.trans {s t r : State} (h : SameChain s t) (h' : SameChain t r) :
    SameChain s r where
  pnext := h'.pnext.trans h.pnext
  pindexGenesisBlock := h'.pindexGenesisBlock.trans h.pindexGenesisBlock
  pindexBest := h'.pindexBest.trans h.pindexBest
  hashBestChain := h'.hashBestChain.trans h.hashBestChain
  nBestHeight := h'.nBestHeight.trans h.nBestHeight
  nBestChainTrust := h'.nBestChainTrust.trans h.nBestChainTrust
  mempool := h'.mempool.trans h.mempool

/-- With a batch in progress, only the batch grows. -/
def DbPending (d d' : CTxDB) : Prop :=
  d.batch.isSome → d'.committed = d.committed ∧ d'.batch.isSome

theorem DbPending.refl (d : CTxDB) : DbPending d d := fun h => ⟨rfl, h⟩

theorem DbPending.trans {a b c : CTxDB} (h : DbPending a b) (h' : DbPending b c) :
    DbPending a c := fun ha => ⟨(h' (h ha).2).1.trans (h ha).1, (h' (h ha).2).2⟩

theorem DbPending.write (d : CTxDB) (k : DbKey) (v : DbVal k) : DbPending d (d.write k v) :=
  fun h => Db.write_pending h

theorem DbPending.erase (d : CTxDB) (k : DbKey) : DbPending d (d.erase k) :=
  fun h => Db.erase_pending h

/-- A database operation in progress: the chain in memory stays, the writes are queued. -/
structure Pending (s t : State) : Prop extends SameChain s t where
  txdb : DbPending s.txdb t.txdb

theorem Pending.refl (s : State) : Pending s s := ⟨.refl s, .refl s.txdb⟩

theorem Pending.trans (s t r : State) (h : Pending s t) (h' : Pending t r) : Pending s r :=
  ⟨h.toSameChain.trans h'.toSameChain, h.txdb.trans h'.txdb⟩

/-- Changing only the database, by queued writes. -/
theorem Pending.of_txdb {s : State} {db : CTxDB} (h : DbPending s.txdb db) :
    Pending s { s with txdb := db } :=
  ⟨⟨rfl, rfl, rfl, rfl, rfl, rfl, rfl⟩, h⟩

theorem named_leaves {σ α : Type} (msg : String) (x : EStateM Reject σ α) (s : σ) :
    leaves (named msg x) s = leaves x s := by
  unfold leaves named
  cases x s <;> rfl

theorem named_keeps {σ α : Type} {R : σ → σ → Prop} {x : EStateM Reject σ α} (h : Keeps R x)
    (msg : String) : Keeps R (named msg x) := by
  intro s
  rw [named_leaves]
  exact h s

theorem named_ok {σ α : Type} {msg : String} {x : EStateM Reject σ α} {s t : σ} {a : α} :
    named msg x s = .ok a t ↔ x s = .ok a t := by
  unfold named
  cases x s <;> simp

theorem named_error {σ α : Type} {msg : String} {x : EStateM Reject σ α} {s t : σ} {e : Reject}
    (h : named msg x s = .error e t) : ∃ e', x s = .error e' t := by
  unfold named at h
  cases hx : x s with
  | ok a r => simp [hx] at h
  | error e' r =>
    simp only [hx, EStateM.Result.error.injEq] at h
    exact ⟨e', by rw [h.2]⟩

theorem named_fails {σ α : Type} {msg : String} {x : EStateM Reject σ α} {s t : σ} {e : Reject}
    (h : x s = .error e t) : named msg x s = .error { msg := msg, nDoS := e.nDoS } t := by
  simp only [named, h]

section Rounds

variable {msg msg' : String} {x : Except Reject CBlock} {f : CBlock → Node Unit}
  {g : CBlock → List CTransaction} {s t : State}

/-- A round of either loop of `Reorganize` that succeeds: the block is read, then moved. -/
theorem round_ok {v : List CTransaction} :
    (named msg (lift x) >>= fun block => named msg' (f block) >>= fun _ => pure (g block) :
      Node (List CTransaction)) s = .ok v t ↔
    ∃ block, x = .ok block ∧ f block s = .ok () t ∧ g block = v := by
  constructor
  · intro h
    obtain ⟨block, s₁, hread, h⟩ := run_bind_ok.mp h
    obtain ⟨hx, rfl⟩ := lift_ok.mp (named_ok.mp hread)
    obtain ⟨_, s₂, hf, h⟩ := run_bind_ok.mp h
    cases h
    exact ⟨block, hx, named_ok.mp hf, rfl⟩
  · intro h
    obtain ⟨block, hx, hf, rfl⟩ := h
    exact run_bind_ok.mpr ⟨block, s, named_ok.mpr (lift_ok.mpr ⟨hx, rfl⟩),
      run_bind_ok.mpr ⟨(), t, named_ok.mpr hf, rfl⟩⟩

theorem round_error {e : Reject}
    (h : (named msg (lift x) >>= fun block => named msg' (f block) >>= fun _ => pure (g block) :
      Node (List CTransaction)) s = .error e t) :
    (∃ e', x = .error e' ∧ s = t) ∨ ∃ block e', x = .ok block ∧ f block s = .error e' t := by
  rcases run_bind_error.mp h with hread | ⟨block, s₁, hread, h⟩
  · obtain ⟨e', hread⟩ := named_error hread
    exact .inl ⟨e', lift_error.mp hread⟩
  · obtain ⟨hx, rfl⟩ := lift_ok.mp (named_ok.mp hread)
    rcases run_bind_error.mp h with hf | ⟨_, s₂, _, h⟩
    · obtain ⟨e', hf⟩ := named_error hf
      exact .inr ⟨block, e', hx, hf⟩
    · cases h

end Rounds

section Blocks

variable {env : Env} {host : Host}

/-- `DisconnectInputs` only writes and erases entries of the transaction index. -/
theorem disconnectInputs_keeps {R : CTxDB → CTxDB → Prop} (hrefl : ∀ db, R db db)
    (htrans : ∀ a b c, R a b → R b c → R a c)
    (hupdate : ∀ db hash txindex, R db (db.updateTxIndex hash txindex))
    (herase : ∀ db tx, R db (CTxDB.eraseTxIndex env db tx)) (tx : CTransaction) :
    Keeps R (tx.disconnectInputs env) := by
  have hinput : ∀ txin, Keeps R (disconnectInput txin) := by
    intro txin db
    unfold leaves disconnectInput
    cases db.readTxIndex txin.prevout.hash with
    | none => exact hrefl db
    | some txindex =>
      by_cases hlt : txin.prevout.n.toNat < txindex.vSpent.length
      · simp only [hlt, ↓reduceIte]
        exact hupdate db _ _
      · simp only [hlt, ↓reduceIte]
        exact hrefl db
  unfold CTransaction.disconnectInputs
  cases tx.isCoinBase with
  | true => exact Keeps.modify fun db => herase db tx
  | false =>
    exact Keeps.bind htrans (Keeps.forM hrefl htrans hinput _)
      (fun _ => Keeps.modify fun db => herase db tx)

theorem disconnectAll_pending (vtx : List CTransaction) :
    Keeps DbPending (vtx.forM (CTransaction.disconnectInputs env)) :=
  Keeps.forM DbPending.refl (fun _ _ _ => .trans)
    (disconnectInputs_keeps DbPending.refl (fun _ _ _ => .trans) (fun db _ _ => .write db _ _)
      fun db _ => .erase db _) vtx

theorem onTxDb_pending {α : Type} {x : EStateM Reject CTxDB α} (h : Keeps DbPending x) :
    Keeps Pending (onTxDb x) := by
  intro s
  have hs := h s.txdb
  unfold leaves at hs
  unfold leaves onTxDb
  cases hx : x s.txdb with
  | ok a db => exact .of_txdb (by simpa [hx] using hs)
  | error e db => exact .of_txdb (by simpa [hx] using hs)

theorem writePrevIndex_pending (s : State) (pindex : CBlockIndex) (h : uint256) :
    Pending s (s.writePrevIndex pindex h) := by
  unfold State.writePrevIndex
  cases pindex.pprev with
  | none => exact .refl s
  | some p => exact .of_txdb (.write s.txdb _ _)

theorem disconnectBlock_pending (block : CBlock) (pindex : CBlockIndex) :
    Keeps Pending (disconnectBlock env block pindex) := by
  unfold disconnectBlock
  refine Keeps.bind Pending.trans (onTxDb_pending (disconnectAll_pending _))
    fun _ => ?_
  refine Keeps.bind Pending.trans (Keeps.modify fun s => writePrevIndex_pending s pindex 0)
    fun _ => ?_
  exact Keeps.modify fun s => ⟨⟨rfl, rfl, rfl, rfl, rfl, rfl, rfl⟩, .refl s.txdb⟩

theorem writeQueued_pending (queued : QueuedChanges) (db : CTxDB) :
    DbPending db (writeQueued db queued) := by
  unfold writeQueued
  induction queued.entries generalizing db with
  | nil => exact .refl db
  | cons e l ih => exact DbPending.trans (.write db _ _) (ih _)

theorem afterConnect_pending (block : CBlock) (pindex : CBlockIndex) (fJustCheck : Bool)
    (acc : ConnectAcc) (s : State) :
    Pending s (s.afterConnect env block pindex fJustCheck acc) := by
  have hindex : Pending s { s.setMint pindex acc with
      txdb := s.txdb.writeBlockIndex ((s.setMint pindex acc).diskBlockIndex pindex) } :=
    ⟨⟨rfl, rfl, rfl, rfl, rfl, rfl, rfl⟩, .write s.txdb _ _⟩
  unfold State.afterConnect
  cases fJustCheck with
  | true => exact hindex
  | false =>
    have hqueued := hindex.trans _ _ _ (.of_txdb (writeQueued_pending acc.mapQueuedChanges _))
    have hprev := hqueued.trans _ _ _ (writePrevIndex_pending _ pindex pindex.getBlockHash)
    exact ⟨⟨hprev.pnext, hprev.pindexGenesisBlock, hprev.pindexBest, hprev.hashBestChain,
      hprev.nBestHeight, hprev.nBestChainTrust, hprev.mempool⟩, hprev.txdb⟩

theorem connectBlock_pending (block : CBlock) (pindex : CBlockIndex) (fJustCheck : Bool) :
    Keeps Pending (connectBlock env host block pindex fJustCheck) := by
  intro s
  unfold leaves connectBlock
  cases connectBlockChecks env (s.ctx host) s.txdb block pindex fJustCheck with
  | error e => exact .refl s
  | ok acc => exact afterConnect_pending block pindex fJustCheck acc s

theorem disconnectRound_pending (v : List CTransaction) (pindex : CBlockIndex) :
    Keeps Pending (disconnectRound env host v pindex) := by
  unfold disconnectRound
  refine Keeps.bind Pending.trans (named_keeps (Keeps.lift Pending.refl _) _) fun block => ?_
  refine Keeps.bind Pending.trans (named_keeps (disconnectBlock_pending block pindex) _)
    fun _ => ?_
  exact fun s => .refl s

theorem connectRound_pending (v : List CTransaction) (pindex : CBlockIndex) :
    Keeps Pending (connectRound env host v pindex) := by
  unfold connectRound
  refine Keeps.bind Pending.trans (named_keeps (Keeps.lift Pending.refl _) _) fun block => ?_
  refine Keeps.bind Pending.trans (named_keeps (connectBlock_pending block pindex false) _)
    fun _ => ?_
  exact fun s => .refl s

theorem writeHashBestChain_pending (hash : uint256) : Keeps Pending (writeHashBestChain hash) :=
  Keeps.modify fun s => .of_txdb (.write s.txdb _ _)

end Blocks

structure Intact (s t : State) : Prop extends SameChain s t where
  committed : t.txdb.committed = s.txdb.committed

theorem Pending.intact {s t : State} (h : Pending s t) (hb : s.txdb.batch.isSome) : Intact s t :=
  ⟨h.toSameChain, (h.txdb hb).1⟩

theorem Intact.trans {s t r : State} (h : Intact s t) (h' : Intact t r) : Intact s r :=
  ⟨h.toSameChain.trans h'.toSameChain, h'.committed.trans h.committed⟩

theorem txnAbort_intact (s : State) : Intact s s.txnAbort :=
  ⟨⟨rfl, rfl, rfl, rfl, rfl, rfl, rfl⟩, rfl⟩

theorem txnBegin_intact (s : State) : Intact s s.txnBegin :=
  ⟨⟨rfl, rfl, rfl, rfl, rfl, rfl, rfl⟩, rfl⟩

section Failures

variable {env : Env} {host : Host}

theorem txnCommit_error {s t : State} {e : Reject} (h : txnCommit host s = .error e t) :
    Intact s t := by
  unfold txnCommit at h
  split at h
  · cases h
    exact txnAbort_intact s
  · cases h

theorem txnCommit_ok {s t : State} (h : txnCommit host s = .ok () t) :
    t = { s with txdb := s.txdb.commit } := by
  unfold txnCommit at h
  split at h
  · cases h
  · cases h
    rfl

/-- Recording the best block, the commit, and a rest that cannot fail. -/
theorem commit_error {β : Type} {k : Node β} {msg : String} {hash : uint256} {s t : State}
    {e : Reject} (hb : s.txdb.batch.isSome) (hk : ∀ s t e, k s = .error e t → False)
    (h : (writeHashBestChain hash >>= fun _ => named msg (txnCommit host) >>= fun _ => k) s =
      .error e t) : Intact s t := by
  rcases run_bind_error.mp h with hw | ⟨_, s₁, hw, h⟩
  · cases hw
  · have h₁ := (writeHashBestChain_pending hash).ok hw
    rcases run_bind_error.mp h with hc | ⟨_, s₂, _, h⟩
    · obtain ⟨e', hc⟩ := named_error hc
      exact (h₁.intact hb).trans (txnCommit_error hc)
    · exact (hk _ _ _ h).elim

theorem switchBranch_error {vDisconnect vConnect : List CBlockIndex} {pindexNew : CBlockIndex}
    {s t : State} {e : Reject} (hb : s.txdb.batch.isSome)
    (h : switchBranch env host vDisconnect vConnect pindexNew s = .error e t) : Intact s t := by
  unfold switchBranch at h
  rcases run_bind_error.mp h with hd | ⟨vResurrect, s₁, hd, h⟩
  · exact ((Keeps.foldlM Pending.refl Pending.trans disconnectRound_pending _ _).error hd).intact hb
  · have h₁ := (Keeps.foldlM Pending.refl Pending.trans disconnectRound_pending _ _).ok hd
    rcases run_bind_error.mp h with hc | ⟨vDelete, s₂, hc, h⟩
    · have h₂ := (Keeps.foldlM Pending.refl Pending.trans connectRound_pending _ _).error hc
      exact (h₁.trans _ _ _ h₂).intact hb
    · have h₂ := (Keeps.foldlM Pending.refl Pending.trans connectRound_pending _ _).ok hc
      have h₁₂ := h₁.trans _ _ _ h₂
      refine (h₁₂.intact hb).trans (commit_error (h₁₂.txdb hb).2 ?_ h)
      intro s t e he
      cases he

theorem reorganize_error {pindexBest pindexNew : CBlockIndex} {s t : State} {e : Reject}
    (hb : s.txdb.batch.isSome)
    (h : reorganize env host pindexBest pindexNew s = .error e t) : Intact s t := by
  unfold reorganize at h
  rcases run_bind_error.mp h with hf | ⟨pfork, s₁, hf, h⟩
  · rw [(lift_error.mp hf).2]
    exact ⟨.refl t, rfl⟩
  · obtain ⟨_, rfl⟩ := lift_ok.mp hf
    rcases run_bind_error.mp h with hs | ⟨⟨vResurrect, vDelete⟩, s₂, _, h⟩
    · exact switchBranch_error hb hs
    · cases h

/-- The committed contents are the same except for `bnBestInvalidTrust`, and the chain in
memory is the same. -/
structure Untouched (s t : State) : Prop extends SameChain s t where
  committed : ∀ k, k ≠ .bnBestInvalidTrust → t.txdb.committed k = s.txdb.committed k

theorem Intact.untouched {s t : State} (h : Intact s t) : Untouched s t :=
  ⟨h.toSameChain, fun k _ => by rw [h.committed]⟩

theorem invalidChainFound_untouched (s : State) (pindexNew : CBlockIndex) :
    Untouched s (s.invalidChainFound pindexNew) := by
  unfold State.invalidChainFound
  split
  · exact ⟨⟨rfl, rfl, rfl, rfl, rfl, rfl, rfl⟩, fun k hk => Function.update_of_ne hk _ _⟩
  · exact ⟨.refl s, fun _ _ => rfl⟩

theorem Intact.abandoned {s t : State} (h : Intact s t) (pindexNew : CBlockIndex) :
    Untouched s (t.txnAbort.invalidChainFound pindexNew) := by
  have ha := (h.trans (txnAbort_intact t)).untouched
  have hi := invalidChainFound_untouched t.txnAbort pindexNew
  exact ⟨ha.toSameChain.trans hi.toSameChain,
    fun k hk => (hi.committed k hk).trans (ha.committed k hk)⟩

theorem setBestChainInner_error {block : CBlock} {pindexNew : CBlockIndex} {s t : State}
    {e : Reject} (hb : s.txdb.batch.isSome)
    (h : setBestChainInner env host block pindexNew s = .error e t) : Untouched s t := by
  have hqueued : Keeps Pending (do
      connectBlock env host block pindexNew; writeHashBestChain (block.getHash env) : Node Unit) :=
    Keeps.bind Pending.trans (connectBlock_pending block pindexNew false)
      (fun _ => writeHashBestChain_pending _)
  unfold setBestChainInner at h
  split at h
  · rename_i e' t' hx
    cases h
    exact ((hqueued.error hx).intact hb).abandoned pindexNew
  · rename_i t' hx
    rcases run_bind_error.mp h with hc | ⟨_, s₁, _, h⟩
    · obtain ⟨e', hc⟩ := named_error hc
      exact (((hqueued.ok hx).intact hb).trans (txnCommit_error hc)).untouched
    · cases h

theorem switchBestChain_error {pindexBest pindexNew : CBlockIndex} {s t : State} {e : Reject}
    (hb : s.txdb.batch.isSome)
    (h : switchBestChain env host pindexBest pindexNew s = .error e t) : Untouched s t := by
  unfold switchBestChain at h
  simp only at h
  split at h
  · rename_i e' t' hr
    cases h
    exact (reorganize_error hb hr).abandoned pindexNew
  · cases h

theorem moveBestChain_error {block : CBlock} {pindexNew : CBlockIndex} {s t : State} {e : Reject}
    (hb : s.txdb.batch.isSome)
    (h : moveBestChain env host block pindexNew s = .error e t) : Untouched s t := by
  unfold moveBestChain at h
  split at h
  · refine (commit_error hb ?_ h).untouched
    intro s t e he
    cases he
  · split at h
    · obtain ⟨e', hi⟩ := named_error h
      exact setBestChainInner_error hb hi
    · split at h
      · cases h
        exact ⟨.refl _, fun _ _ => rfl⟩
      · exact switchBestChain_error hb h

theorem setBestChain_error {block : CBlock} {pindexNew : CBlockIndex} {s t : State} {e : Reject}
    (h : setBestChain env host block pindexNew s = .error e t) :
    moveBestChain env host block pindexNew s.txnBegin = .error e t := by
  unfold setBestChain at h
  rcases run_bind_error.mp h with hbegin | ⟨_, s₀, hbegin, h⟩
  · cases hbegin
  · cases hbegin
    rcases run_bind_error.mp h with hm | ⟨_, s₁, _, h⟩
    · exact hm
    · cases h

theorem setBestChain_ok {block : CBlock} {pindexNew : CBlockIndex} {s t : State}
    (h : setBestChain env host block pindexNew s = .ok () t) :
    ∃ r, moveBestChain env host block pindexNew s.txnBegin = .ok () r ∧
      t = r.newBest (block.getHash env) pindexNew := by
  unfold setBestChain at h
  obtain ⟨_, s₀, hbegin, h⟩ := run_bind_ok.mp h
  cases hbegin
  obtain ⟨_, s₁, hm, h⟩ := run_bind_ok.mp h
  cases h
  exact ⟨s₁, hm, rfl⟩

/-- The three ways in which a call that succeeds moves the chain from `s` to `t`. -/
inductive Advance (env : Env) (host : Host) (block : CBlock) (pindexNew : CBlockIndex)
    (s t : State) : Prop
  | start (hfirst : s.pindexGenesisBlock = none ∧ block.getHash env = hashGenesisBlock)
      (ht : t = { s with
        txdb := (s.txnBegin.txdb.writeHashBestChain (block.getHash env)).commit
        pindexGenesisBlock := some pindexNew })
  | extend (hfirst : ¬ (s.pindexGenesisBlock = none ∧ block.getHash env = hashGenesisBlock))
      (hext : block.hashPrevBlock = s.hashBestChain)
      (hinner : setBestChainInner env host block pindexNew s.txnBegin = .ok () t)
  | switch (hfirst : ¬ (s.pindexGenesisBlock = none ∧ block.getHash env = hashGenesisBlock))
      (hext : block.hashPrevBlock ≠ s.hashBestChain) (b : CBlockIndex) (r : State)
      (hbest : s.pindexBest = some b)
      (hr : reorganize env host b (pindexNew.postpone b.nChainTrust).1 s.txnBegin = .ok () r)
      (ht : t = connectFurther env host (pindexNew.postpone b.nChainTrust).2.reverse r)

theorem moveBestChain_ok {block : CBlock} {pindexNew : CBlockIndex} {s t : State}
    (h : moveBestChain env host block pindexNew s.txnBegin = .ok () t) :
    Advance env host block pindexNew s t := by
  have hgenesis : s.txnBegin.pindexGenesisBlock = s.pindexGenesisBlock := rfl
  have hhash : s.txnBegin.hashBestChain = s.hashBestChain := rfl
  have hbest : s.txnBegin.pindexBest = s.pindexBest := rfl
  unfold moveBestChain at h
  rw [hgenesis, hhash, hbest] at h
  split at h
  · rename_i hfirst
    obtain ⟨_, s₁, hw, h⟩ := run_bind_ok.mp h
    cases hw
    obtain ⟨_, s₂, hcommit, h⟩ := run_bind_ok.mp h
    have hcommitted := txnCommit_ok (named_ok.mp hcommit)
    cases h
    rw [hcommitted]
    exact .start hfirst rfl
  · rename_i hfirst
    split at h
    · rename_i hext
      exact .extend hfirst hext (named_ok.mp h)
    · rename_i hext
      cases hb : s.pindexBest with
      | none =>
        rw [hb] at h
        cases h
      | some b =>
        simp only [hb, switchBestChain] at h
        cases hr : reorganize env host b (pindexNew.postpone b.nChainTrust).1 s.txnBegin with
        | error e r => simp [hr] at h
        | ok u r =>
          simp only [hr, EStateM.Result.ok.injEq, true_and] at h
          exact .switch hfirst hext b r hb hr h.symm

theorem setBestChain_error_untouched {block : CBlock} {pindexNew : CBlockIndex} {s t : State}
    {e : Reject} (h : setBestChain env host block pindexNew s = .error e t) : Untouched s t := by
  have hu := moveBestChain_error rfl (setBestChain_error h)
  exact ⟨(txnBegin_intact s).toSameChain.trans hu.toSameChain, hu.committed⟩

/-- A `SetBestChain` that returns false, wherever it failed, leaves the committed database
(`bnBestInvalidTrust` apart), the chain in memory and the memory pool as they were. -/
theorem failed_setBestChain_untouched {block : CBlock} {pindexNew : CBlockIndex} {s t : State}
    {e : Reject} (h : setBestChain env host block pindexNew s = .error e t) : Untouched s t :=
  setBestChain_error_untouched h

end Failures

namespace Sample

/-! A chain of one block, and a branch of two blocks of which the second claims too much. -/

def host : Host := { nAdjustedTime := 60 }

def mainBlock : CBlock := blockOf hashGenesisBlock 30 [coinbase 20 COIN]

def mainIndex : CBlockIndex := .child (fieldsOf 30 30 400 2) genesisIndex

def sideBlock : CBlock := blockOf hashGenesisBlock 40 [coinbase 39 COIN]

def sideIndex : CBlockIndex := .child (fieldsOf 40 40 800 2) genesisIndex

def greedyBlock : CBlock := blockOf 40 50 [coinbase 49 (100 * COIN) 2]

def greedyIndex : CBlockIndex := .child (fieldsOf 50 50 1200 3) sideIndex

def forkEnv : Env :=
  env [(mainIndex, mainBlock), (sideIndex, sideBlock), (greedyIndex, greedyBlock)]

def wallet : CWallet where
  ownsScript script := script == opTrue
  mapWallet _ := none

def mainNode : State :=
  leaves (setBestChain forkEnv host mainBlock mainIndex)
    { nodeWith (fun _ => none) with wallets := [wallet] }

end Sample

theorem greedyBlock_leaves_chain :
    ∃ e t, setBestChain Sample.forkEnv Sample.host Sample.greedyBlock Sample.greedyIndex
        Sample.mainNode = .error e t ∧ Untouched Sample.mainNode t := by
  obtain ⟨e, he⟩ := error_of_fails (x := setBestChain Sample.forkEnv Sample.host
    Sample.greedyBlock Sample.greedyIndex) (s := Sample.mainNode) (by decide)
  exact ⟨e, _, he, failed_setBestChain_untouched he⟩

end Triangles
