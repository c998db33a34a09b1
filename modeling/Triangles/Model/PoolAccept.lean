import Triangles.Lib.Buckets
import Triangles.Model.Connect

/-! Entering the memory pool with all input checks, `CTxMemPool::accept` (main.cpp). -/

namespace Triangles

open Outcome

structure AcceptError extends Reject where
  fMissingInputs : Bool := false
deriving DecidableEq, Repr

/-- What decides about relaying besides the checks modelled here: the standard forms of
inputs, and the rate limiter for free transactions, which counts in floating point. -/
structure RelayPolicy where
  areInputsStandard : CTransaction → MapPrevTx → Bool
  limitsFree : CTransaction → Bool

/-- What `accept` reads of the node: the clock, the best block, the pool and a database
handle. -/
structure AcceptCtx extends Ctx where
  txdb : CTxDB
  pindexBest : CBlockIndex
  policy : RelayPolicy

def notMissing (x : Except Reject α) : Except AcceptError α :=
  match x with
  | .ok a => .ok a
  | .error e => .error { toReject := e }

def CTransaction.acceptInputs (env : Env) (ctx : AcceptCtx) (tx : CTransaction) :
    Except AcceptError Unit :=
  match tx.fetchInputs env ctx.txdb ∅ ctx.mempool false false with
  | .error e =>
    if e.fInvalid then
      .error { msg := "CTxMemPool::accept() : FetchInputs found invalid tx %s", nDoS := e.nDoS }
    else .error { msg := "", nDoS := e.nDoS, fMissingInputs := true }
  | .ok mapInputs => notMissing do
    check (ctx.policy.areInputsStandard tx mapInputs || env.fTestNet)
      { msg := "CTxMemPool::accept() : nonstandard transaction input" }
    let nValueIn ← tx.getValueIn mapInputs
    let nValueOut ← tx.getValueOut
    let nFees := nValueIn - nValueOut
    check (decide (tx.getMinFee 1000 .GMF_RELAY tx.getSerializeSize ≤ nFees))
      { msg := "CTxMemPool::accept() : not enough fees %s, %d < %d" }
    check (!(decide (nFees < MIN_RELAY_TX_FEE) && ctx.policy.limitsFree tx))
      { msg := "CTxMemPool::accept() : free transaction rejected by rate limiter" }
    match tx.connectInputs env ctx.toCtx mapInputs ∅ .inMempool ctx.pindexBest false false with
    | .error e =>
      .error { msg := "CTxMemPool::accept() : ConnectInputs failed %s", nDoS := e.nDoS }
    | .ok _ => pure ()

/-- `CTxMemPool::accept`. The replacement of an older version is switched off in the source:
any conflict ends the call. -/
def CTxMemPool.accept (env : Env) (ctx : AcceptCtx) (tx : CTransaction) (fCheckInputs : Bool) :
    Except AcceptError CTxMemPool := do
  notMissing <|
    match tx.checkTransaction with
    | .error e => .error { msg := "CTxMemPool::accept() : CheckTransaction failed", nDoS := e.nDoS }
    | .ok _ => do
      check (!tx.isCoinBase)
        { msg := "CTxMemPool::accept() : coinbase as individual tx", nDoS := 100 }
      check (!tx.isCoinStake)
        { msg := "CTxMemPool::accept() : coinstake as individual tx", nDoS := 100 }
      check (decide (tx.nLockTime.toNat ≤ 2147483647))
        { msg := "CTxMemPool::accept() : not accepting nLockTime beyond 2038 yet" }
      check (env.fTestNet || env.isStandard tx)
        { msg := "CTxMemPool::accept() : nonstandard transaction type" }
      check (decide (tx.getHash env ∉ ctx.mempool.mapTx)) { msg := "" }
      check (!(fCheckInputs && ctx.txdb.containsTx (tx.getHash env))) { msg := "" }
      check (tx.vin.all fun txin => decide (txin.prevout ∉ ctx.mempool.mapNextTx)) { msg := "" }
  if fCheckInputs then tx.acceptInputs env ctx
  pure (ctx.mempool.addUnchecked (tx.getHash env) tx)

def CTxMemPool.clear (_ : CTxMemPool) : CTxMemPool := .empty

section Spec

variable {env : Env} {ctx : AcceptCtx} {tx : CTransaction}

theorem notMissing_ok {x : Except Reject α} {a : α} : notMissing x = .ok a ↔ x = .ok a := by
  cases x <;> simp [notMissing]

structure Admissible (env : Env) (pool : CTxMemPool) (tx : CTransaction) : Prop where
  checked : ∃ u, tx.checkTransaction = .ok u
  not_coinBase : tx.isCoinBase = false
  new : tx.getHash env ∉ pool.mapTx
  unclaimed : ∀ txin ∈ tx.vin, txin.prevout ∉ pool.mapNextTx

theorem accept_ok {fCheckInputs : Bool} {pool : CTxMemPool}
    (h : CTxMemPool.accept env ctx tx fCheckInputs = .ok pool) :
    Admissible env ctx.mempool tx ∧ pool = ctx.mempool.addUnchecked (tx.getHash env) tx := by
  unfold CTxMemPool.accept at h
  obtain ⟨_, hchecks, h⟩ := bind_ok.mp h
  rw [notMissing_ok] at hchecks
  split at hchecks
  · cases hchecks
  · rename_i u hchecked
    simp only [check_bind, check_ok, Bool.not_eq_true', decide_eq_true_eq, List.all_eq_true]
      at hchecks
    obtain ⟨hbase, _, _, _, hnew, _, hfree⟩ := hchecks
    refine ⟨⟨⟨u, hchecked⟩, hbase, hnew, hfree⟩, ?_⟩
    cases fCheckInputs with
    | false =>
      simp only [Bool.false_eq_true, ↓reduceIte, pure_ok] at h
      exact h.symm
    | true =>
      simp only [↓reduceIte, bind_ok, pure_ok] at h
      obtain ⟨_, _, h⟩ := h
      exact h.symm

theorem acceptUnfetched_ok {pool pool' : CTxMemPool}
    (h : pool.acceptUnfetched env tx = .ok pool') :
    Admissible env pool tx ∧ pool' = pool.addUnchecked (tx.getHash env) tx := by
  unfold CTxMemPool.acceptUnfetched at h
  split at h
  · cases h
  · rename_i u hchecked
    simp only [check_bind, Bool.not_eq_true', decide_eq_true_eq, List.all_eq_true, pure_ok] at h
    obtain ⟨hbase, _, _, _, hnew, hfree, h⟩ := h
    exact ⟨⟨⟨u, hchecked⟩, hbase, hnew, hfree⟩, h.symm⟩

end Spec

end Triangles

/-! Transactions whose inputs are not known yet, and the handler of the `tx` message
(main.cpp). -/

namespace Triangles

def MAX_ORPHAN_TRANSACTIONS : Nat := MAX_BLOCK_SIZE / 100

structure OrphanTxs where
  mapOrphanTransactions : AList (fun _ : uint256 => CTransaction)
  mapOrphanTransactionsByPrev : Buckets uint256 uint256
deriving DecidableEq

def CTransaction.prevHashes (tx : CTransaction) : List uint256 := tx.vin.map (·.prevout.hash)

namespace OrphanTxs

def empty : OrphanTxs := ⟨∅, ∅⟩

def size (o : OrphanTxs) : Nat := o.mapOrphanTransactions.keys.length

def addOrphanTx (env : Env) (o : OrphanTxs) (tx : CTransaction) : Bool × OrphanTxs :=
  let hash := tx.getHash env
  if hash ∈ o.mapOrphanTransactions then (false, o)
  else if 5000 < tx.getSerializeSize then (false, o)
  else
    (true, { mapOrphanTransactions := o.mapOrphanTransactions.insert hash tx
             mapOrphanTransactionsByPrev :=
               tx.vin.foldl (fun m txin => Buckets.put m txin.prevout.hash hash)
                 o.mapOrphanTransactionsByPrev })

def eraseOrphanTx (o : OrphanTxs) (hash : uint256) : OrphanTxs :=
  match o.mapOrphanTransactions.lookup hash with
  | none => o
  | some tx =>
    { mapOrphanTransactions := o.mapOrphanTransactions.erase hash
      mapOrphanTransactionsByPrev :=
        tx.vin.foldl (fun m txin => Buckets.take m txin.prevout.hash hash)
          o.mapOrphanTransactionsByPrev }

def chooseEvicted (o : OrphanTxs) (randomhash : uint256) : Option uint256 :=
  let keys := o.mapOrphanTransactions.keys
  (keys.filter (randomhash ≤ ·)).min?.or keys.min?

/-- The loop of `LimitOrphanTxSize`, with the random hash of each round. Every round erases
an entry, so the number of entries bounds the number of rounds. -/
def limitLoop (nMaxOrphans : Nat) (randomhash : Nat → uint256) :
    Nat → Nat → OrphanTxs → Nat × OrphanTxs
  | 0, nEvicted, o => (nEvicted, o)
  | rounds + 1, nEvicted, o =>
    if nMaxOrphans < o.size then
      match o.chooseEvicted (randomhash nEvicted) with
      | none => (nEvicted, o)
      | some hash => limitLoop nMaxOrphans randomhash rounds (nEvicted + 1) (o.eraseOrphanTx hash)
    else (nEvicted, o)

def limitOrphanTxSize (o : OrphanTxs) (nMaxOrphans : Nat) (randomhash : Nat → uint256) :
    Nat × OrphanTxs :=
  limitLoop nMaxOrphans randomhash o.size 0 o

end OrphanTxs

/-- What the handler reads of the node. The rate limiter counts from one transaction to the
next, so each of them meets a policy of its own. -/
structure TxCtx extends Ctx where
  txdb : CTxDB
  pindexBest : CBlockIndex
  policy : Nat → RelayPolicy

def TxCtx.acceptCtx (ctx : TxCtx) (pool : CTxMemPool) (n : Nat) : AcceptCtx where
  nAdjustedTime := ctx.nAdjustedTime
  nHeightBest := ctx.nHeightBest
  nBestHeight := ctx.nBestHeight
  mempool := pool
  txdb := ctx.txdb
  pindexBest := ctx.pindexBest
  policy := ctx.policy n

/-- The pool and the two queues of the handler, and the number of transactions offered to
the pool so far. -/
structure TxQueues where
  mempool : CTxMemPool
  vWorkQueue : List uint256
  vEraseQueue : List uint256
  nOffered : Nat

def TxQueues.offer (env : Env) (ctx : TxCtx) (q : TxQueues) (orphanTxHash : uint256)
    (orphanTx : CTransaction) : TxQueues :=
  match CTxMemPool.accept env (ctx.acceptCtx q.mempool q.nOffered) orphanTx true with
  | .ok pool =>
    { mempool := pool
      vWorkQueue := q.vWorkQueue ++ [orphanTxHash]
      vEraseQueue := q.vEraseQueue ++ [orphanTxHash]
      nOffered := q.nOffered + 1 }
  | .error e =>
    if e.fMissingInputs then { q with nOffered := q.nOffered + 1 }
    else { q with vEraseQueue := q.vEraseQueue ++ [orphanTxHash], nOffered := q.nOffered + 1 }

/-- `mapOrphanTransactions[hash]`, which makes a null transaction when there is none. -/
def OrphanTxs.orphanAt (nAdjustedTime : Int) (o : OrphanTxs) (hash : uint256) :
    CTransaction × OrphanTxs :=
  match o.mapOrphanTransactions.lookup hash with
  | some tx => (tx, o)
  | none =>
    let tx : CTransaction := { nTime := .ofInt nAdjustedTime, vin := [], vout := [] }
    (tx, { o with mapOrphanTransactions := o.mapOrphanTransactions.insert hash tx })

def tryOrphan (env : Env) (ctx : TxCtx) (w : OrphanTxs × TxQueues) (orphanTxHash : uint256) :
    OrphanTxs × TxQueues :=
  let (orphanTx, o) := w.1.orphanAt ctx.nAdjustedTime orphanTxHash
  (o, w.2.offer env ctx orphanTxHash orphanTx)

/-- The work loop of the handler from entry `i` of the queue on. Each bucket is read with
`operator[]`. -/
def processQueue (env : Env) (ctx : TxCtx) : Nat → Nat → OrphanTxs × TxQueues →
    OrphanTxs × TxQueues
  | 0, _, w => w
  | rounds + 1, i, (o, q) =>
    match q.vWorkQueue[i]? with
    | none => (o, q)
    | some hashPrev =>
      let o := { o with
        mapOrphanTransactionsByPrev := Buckets.touch o.mapOrphanTransactionsByPrev hashPrev }
      let bucket := Buckets.bucket o.mapOrphanTransactionsByPrev hashPrev
      processQueue env ctx rounds (i + 1) ((bucket.sort).foldl (tryOrphan env ctx) (o, q))

/-- The handler of the `tx` message once the transaction is read. A transaction is queued at
most once, so the work loop ends after as many rounds as there are orphans, and one more. -/
def processTx (env : Env) (ctx : TxCtx) (randomhash : Nat → uint256) (o : OrphanTxs)
    (tx : CTransaction) : OrphanTxs × CTxMemPool :=
  match CTxMemPool.accept env (ctx.acceptCtx ctx.mempool 0) tx true with
  | .ok pool =>
    let hash := tx.getHash env
    let (o, q) := processQueue env ctx (o.size + 1) 0 (o, ⟨pool, [hash], [hash], 1⟩)
    (q.vEraseQueue.foldl OrphanTxs.eraseOrphanTx o, q.mempool)
  | .error e =>
    if e.fMissingInputs then
      let (_, o) := o.addOrphanTx env tx
      ((o.limitOrphanTxSize MAX_ORPHAN_TRANSACTIONS randomhash).2, ctx.mempool)
    else (o, ctx.mempool)

/-- The calls and messages that change the orphan transactions. Each message comes with the
node as it then is. -/
inductive OrphanOp where
  | addOrphanTx (tx : CTransaction)
  | eraseOrphanTx (hash : uint256)
  | limitOrphanTxSize (nMaxOrphans : Nat) (randomhash : Nat → uint256)
  | txMessage (ctx : TxCtx) (randomhash : Nat → uint256) (tx : CTransaction)

def OrphanOp.apply (env : Env) (o : OrphanTxs) : OrphanOp → OrphanTxs
  | .addOrphanTx tx => (o.addOrphanTx env tx).2
  | .eraseOrphanTx hash => o.eraseOrphanTx hash
  | .limitOrphanTxSize nMaxOrphans randomhash => (o.limitOrphanTxSize nMaxOrphans randomhash).2
  | .txMessage ctx randomhash tx => (processTx env ctx randomhash o tx).1

end Triangles
