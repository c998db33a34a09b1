import Triangles.Proofs.Supply

/-! Which blocks `ConnectBlock` judges the same whatever the best block is. The height of the
best block decides the subsidy and whether signatures are verified. -/

namespace Triangles

open Outcome Trace Ledger CTransaction

def Ctx.withTip (ctx : Ctx) (h : Int) : Ctx := { ctx with nHeightBest := h, nBestHeight := h }

theorem State.ctx_newBest (s : State) (host : Host) (hash : uint256) (tip : CBlockIndex) :
    (s.newBest hash tip).ctx host = (s.ctx host).withTip tip.nHeight := rfl

/-- Every signature of the transaction verifies under `verify`, each against the transaction
that the index leads to. -/
def Signed (verify : CTransaction → CTransaction → Nat → Bool) (env : Env) (pool : CTxMemPool)
    (V : TxIndexMap) (tx : CTransaction) : Prop :=
  tx.isCoinBase = false → ∀ x ∈ tx.vin.zipIdx, ∀ txPrev,
    prevTx env pool V x.1.prevout.hash = some txPrev → verify txPrev tx x.2 = true

/-- Every signature of the block verifies under the rules that hold above the checkpoints. -/
def SignedBlock (env : Env) (pool : CTxMemPool) (V : TxIndexMap) (block : CBlock)
    (pindex : CBlockIndex) : Prop :=
  ∀ x ∈ trace (Book.post env pindex) (opened V block pindex) block.vtx,
    Signed (verifySignature env getTotalBlocksEstimate) env pool x.1.index x.2

section Signatures

variable {env : Env} {ctx : Ctx} {txdb : CTxDB} {pindex : CBlockIndex}
  {verify : CTransaction → CTransaction → Nat → Bool} {tx : CTransaction} {pos : CDiskTxPos}

/-- The transactions the second loop of `ConnectInputs` verifies against. -/
def Sources (env : Env) (pool : CTxMemPool) (V : TxIndexMap) (acc : MapPrevTx × QueuedChanges) :
    Prop :=
  ∀ h e, acc.1.lookup h = some e → prevTx env pool V h = some e.2

theorem spendInput_sources {pool : CTxMemPool} {V : TxIndexMap}
    {acc acc' : MapPrevTx × QueuedChanges} {input : CTxIn × Nat}
    (h : spendInput verify tx pos true false acc input = .ok acc') (hs : Sources env pool V acc) :
    Sources env pool V acc' := by
  obtain ⟨e, spent, he, -, -, -, rfl⟩ := spendInput_ok.mp h
  intro k e' hk
  by_cases hh : k = input.1.prevout.hash
  · subst hh
    rw [AList.lookup_insert] at hk
    cases hk
    exact hs _ e he
  · rw [AList.lookup_insert_ne hh] at hk
    exact hs k e' hk

/-- A round with signatures verified is a round without, and a signature. -/
theorem spendInput_verified (pos : CDiskTxPos) {pool : CTxMemPool} {V : TxIndexMap}
    {acc acc' : MapPrevTx × QueuedChanges} {input : CTxIn × Nat} (hs : Sources env pool V acc) :
    spendInput verify tx pos true false acc input = .ok acc' ↔
      spendInput (fun _ _ _ => true) tx pos true false acc input = .ok acc' ∧
        ∀ txPrev, prevTx env pool V input.1.prevout.hash = some txPrev →
          verify txPrev tx input.2 = true := by
  rw [spendInput_ok, spendInput_ok]
  constructor
  · rintro ⟨e, spent, he, hspent, hnull, hverify, hacc⟩
    refine ⟨⟨e, spent, he, hspent, hnull, rfl, hacc⟩, fun txPrev hprev => ?_⟩
    rw [hs _ e he] at hprev
    cases hprev
    exact hverify
  · rintro ⟨⟨e, spent, he, hspent, hnull, -, hacc⟩, hverify⟩
    exact ⟨e, spent, he, hspent, hnull, hverify e.2 (hs _ e he), hacc⟩

theorem connectInputs_verified {inputs : MapPrevTx} {queued queued' : QueuedChanges}
    (hc : tx.isCoinBase = false)
    (hf : fetchInputs env txdb queued ctx.mempool true false tx = .ok inputs) :
    connectInputs env ctx tx inputs queued pos pindex true false = .ok queued' ↔
      connectInputs env (ctx.withTip 0) tx inputs queued pos pindex true false = .ok queued' ∧
        Signed (verifyInput env ctx true) env ctx.mempool (overlay queued txdb.txIndex) tx := by
  obtain ⟨hfetched, _⟩ := fetchInputs_spec rfl hf hc
  have hskip : verifyInput env (ctx.withTip 0) true = fun _ _ _ => true := by
    funext txPrev tx i
    rfl
  have hloop : ∀ acc', tx.vin.zipIdx.foldlM
      (spendInput (verifyInput env ctx true) tx pos true false) (inputs, queued) = .ok acc' ↔
      tx.vin.zipIdx.foldlM (spendInput (fun _ _ _ => true) tx pos true false)
        (inputs, queued) = .ok acc' ∧ ∀ x ∈ tx.vin.zipIdx, ∀ txPrev,
          prevTx env ctx.mempool (overlay queued txdb.txIndex) x.1.prevout.hash = some txPrev →
            verifyInput env ctx true txPrev tx x.2 = true := by
    intro acc'
    refine (foldlM_guarded (A := fun _ => ()) (g := fun c _ => c)
      (I := Sources env ctx.mempool (overlay queued txdb.txIndex))
      (P := fun _ (x : CTxIn × Nat) => ∀ txPrev,
        prevTx env ctx.mempool (overlay queued txdb.txIndex) x.1.prevout.hash = some txPrev →
          verifyInput env ctx true txPrev tx x.2 = true)
      (fun _ _ _ hs => spendInput_verified pos hs)
      (fun _ _ _ h hs => ⟨spendInput_sources h hs, rfl⟩)
      (fun k e he => (hfetched k e he).2)).trans ?_
    simp only [trace_const, List.forall_mem_map]
  simp only [connectInputs, hc, Bool.false_eq_true, ↓reduceIte, bind_ok, pure_ok, hskip, hloop,
    Signed, forall_const]
  constructor
  · intro h
    obtain ⟨n, hn, acc', ⟨hacc, hsig⟩, hfee⟩ := h
    exact ⟨⟨n, hn, acc', hacc, hfee⟩, hsig⟩
  · intro h
    obtain ⟨⟨n, hn, acc', hacc, hfee⟩, hsig⟩ := h
    exact ⟨n, hn, acc', ⟨hacc, hsig⟩, hfee⟩

theorem connectTx_verified {acc acc' : ConnectAcc} :
    connectTx env ctx txdb pindex false acc tx = .ok acc' ↔
      connectTx env (ctx.withTip 0) txdb pindex false acc tx = .ok acc' ∧
        Signed (verifyInput env ctx true) env ctx.mempool (bookOf txdb.txIndex acc).index tx := by
  simp only [connectTx, check_bind]
  cases hc : tx.isCoinBase with
  | true => simp [Signed, hc]
  | false =>
    simp only [Bool.false_eq_true, ↓reduceIte, bind_ok, pure_ok, check_ok, exists_const]
    constructor
    · intro h
      obtain ⟨ho, hsig, inputs, hf, n, hn, hops, nIn, hin, nOut, hout, queued, hq, rfl⟩ := h
      obtain ⟨hq, hsigned⟩ := (connectInputs_verified hc hf).mp hq
      exact ⟨⟨ho, hsig, inputs, hf, n, hn, hops, nIn, hin, nOut, hout, queued, hq, rfl⟩, hsigned⟩
    · intro h
      obtain ⟨⟨ho, hsig, inputs, hf, n, hn, hops, nIn, hin, nOut, hout, queued, hq, rfl⟩, hsigned⟩ := h
      have hf : fetchInputs env txdb acc.mapQueuedChanges ctx.mempool true false tx = .ok inputs := hf
      exact ⟨ho, hsig, inputs, hf, n, hn, hops, nIn, hin, nOut, hout, queued,
        (connectInputs_verified hc hf).mpr ⟨hq, hsigned⟩, rfl⟩

/-- The transaction loop with signatures verified is the loop without, and signatures. -/
theorem connect_loop_verified {vtx : List CTransaction} {acc acc' : ConnectAcc} :
    vtx.foldlM (connectTx env ctx txdb pindex false) acc = .ok acc' ↔
      vtx.foldlM (connectTx env (ctx.withTip 0) txdb pindex false) acc = .ok acc' ∧
        ∀ x ∈ trace (Book.post env pindex) (bookOf txdb.txIndex acc) vtx,
          Signed (verifyInput env ctx true) env ctx.mempool x.1.index x.2 :=
  foldlM_guarded (A := bookOf txdb.txIndex) (I := fun _ => True)
    (P := fun b tx => Signed (verifyInput env ctx true) env ctx.mempool b.index tx)
    (fun _ _ _ _ => connectTx_verified)
    (fun _ _ _ h _ => ⟨trivial, (connectTx_spec h).book⟩) trivial

end Signatures

/-- The checks of `ConnectBlock` that do not look at the best block: all but the signatures
and the reward of a proof-of-work block. -/
def PassesFixedChecks (env : Env) (ctx : Ctx) (txdb : CTxDB) (block : CBlock)
    (pindex : CBlockIndex) : Prop :=
  block.checkBlock env ctx.nAdjustedTime true true false = .ok () ∧
    -- below the checkpoints the loop skips the signatures
    ∃ acc, block.vtx.foldlM (connectTx env (ctx.withTip 0) txdb pindex false)
        { nTxPos := firstTxPos block pindex false } = .ok acc ∧
      (block.isProofOfStake = true →
        checkStakeReward env txdb block acc.nStakeReward acc.nFees = .ok ())

section Verdict

variable {env : Env} {ctx : Ctx} {txdb : CTxDB} {block : CBlock} {pindex : CBlockIndex}

/-- At and above the last checkpoint every height asks for the same signatures. -/
theorem isCanonicalSignature_above {h : Int} (hh : getTotalBlocksEstimate ≤ h) :
    isCanonicalSignature h = isCanonicalSignature getTotalBlocksEstimate := by
  have htop : (17691 : Int) < getTotalBlocksEstimate := by decide
  have h1 : CRAPCHAIN_CUTOFF_BLOCK < h := lt_of_lt_of_le htop hh
  have h2 : CRAPCHAIN_CUTOFF_BLOCK < getTotalBlocksEstimate := htop
  funext vchSig
  simp only [isCanonicalSignature, h1, h2]

theorem verifySignature_above {h : Int} (hh : getTotalBlocksEstimate ≤ h) :
    verifySignature env h = verifySignature env getTotalBlocksEstimate := by
  funext txFrom txTo nIn
  simp only [verifySignature, isCanonicalSignature_above hh]

/-- The signatures the loop asks for when the best block has height `h`. -/
theorem signed_withTip (h : Int) (V : TxIndexMap) (tx : CTransaction) :
    Signed (verifyInput env (ctx.withTip h) true) env ctx.mempool V tx ↔
      h < getTotalBlocksEstimate ∨
        Signed (verifySignature env getTotalBlocksEstimate) env ctx.mempool V tx := by
  by_cases hh : h < getTotalBlocksEstimate
  · simp [Signed, verifyInput, Ctx.withTip, hh]
  · simp [Signed, verifyInput, Ctx.withTip, hh, verifySignature_above (not_lt.mp hh)]

theorem checkPowReward_iff {nFees : Int} {coinbase : CTransaction} {rest : List CTransaction}
    (hv : block.vtx = coinbase :: rest) {n : Int} (hn : coinbase.getValueOut = .ok n) :
    checkPowReward ctx block nFees = .ok () ↔
      coinbaseOut block ≤ powSubsidy ctx.nHeightBest + nFees := by
  have hhead : coinbaseOut block = n := by simp [coinbaseOut, hv, get_value_out_ok hn]
  simp only [checkPowReward, hv, hn, hhead, getProofOfWorkReward, bind_ok, check_ok,
    Except.ok.injEq, exists_eq_left']
  exact decide_eq_true_iff

/-- A loop that has passed the coinbase has added up its outputs. -/
theorem coinbase_value_of_loop {coinbase : CTransaction} {rest : List CTransaction}
    {acc acc' : ConnectAcc} (hc : coinbase.isCoinBase = true)
    (h : (coinbase :: rest).foldlM (connectTx env ctx txdb pindex false) acc = .ok acc') :
    ∃ n, coinbase.getValueOut = .ok n := by
  simp only [List.foldlM_cons, bind_ok] at h
  obtain ⟨_, h, _⟩ := h
  simp only [connectTx, check_bind] at h
  simp only [hc, ↓reduceIte, bind_ok] at h
  obtain ⟨_, _, n, hn, _⟩ := h
  exact ⟨n, hn⟩

/-- The verdict, with the parts that look at the best block apart. -/
theorem connectBlockChecks_withTip (ctx : Ctx) (h : Int) :
    (∃ acc, connectBlockChecks env (ctx.withTip h) txdb block pindex false = .ok acc) ↔
      PassesFixedChecks env ctx txdb block pindex ∧
      (h < getTotalBlocksEstimate ∨ SignedBlock env ctx.mempool txdb.txIndex block pindex) ∧
      (block.isProofOfWork = true → coinbaseOut block ≤
        powSubsidy h + feeTotal env ctx.mempool txdb.txIndex block pindex) := by
  have hsigned : ∀ acc, block.vtx.foldlM (connectTx env (ctx.withTip h) txdb pindex false)
      { nTxPos := firstTxPos block pindex false } = .ok acc ↔
      block.vtx.foldlM (connectTx env (ctx.withTip 0) txdb pindex false)
        { nTxPos := firstTxPos block pindex false } = .ok acc ∧
      (h < getTotalBlocksEstimate ∨
        SignedBlock env ctx.mempool txdb.txIndex block pindex) := by
    intro acc
    refine connect_loop_verified.trans (and_congr_right' ?_)
    simp only [SignedBlock, ← forall_or_left]
    exact forall₂_congr fun x _ => signed_withTip h x.1.index x.2
  -- the reward check of a proof-of-work block whose other checks pass
  have hreward : ∀ {acc}, block.checkBlock env ctx.nAdjustedTime true true false = .ok () →
      block.vtx.foldlM (connectTx env (ctx.withTip 0) txdb pindex false)
        { nTxPos := firstTxPos block pindex false } = .ok acc →
      (checkPowReward (ctx.withTip h) block acc.nFees = .ok () ↔ coinbaseOut block ≤
        powSubsidy h + feeTotal env ctx.mempool txdb.txIndex block pindex) := by
    intro acc hcheck hloop
    obtain ⟨coinbase, rest, hv, hc, _⟩ := (checkBlock_spec hcheck).coinbase
    have hfees : acc.nFees = feeTotal env ctx.mempool txdb.txIndex block pindex :=
      (connect_loop_total (fun _ _ _ hr => hr.fees) hloop).trans (Int.zero_add _)
    rw [hv] at hloop
    obtain ⟨n, hn⟩ := coinbase_value_of_loop hc hloop
    rw [checkPowReward_iff hv hn, hfees]
    rfl
  simp only [connectBlockChecks_iff, hsigned]
  constructor
  · intro h
    obtain ⟨acc, hcheck, ⟨hloop, hsig⟩, hpow, hstake⟩ := h
    exact ⟨⟨hcheck, acc, hloop, hstake⟩, hsig, fun hw => (hreward hcheck hloop).mp (hpow hw)⟩
  · intro h
    obtain ⟨⟨hcheck, acc, hloop, hstake⟩, hsig, hpow⟩ := h
    exact ⟨acc, hcheck, ⟨hloop, hsig⟩, fun hw => (hreward hcheck hloop).mpr (hpow hw), hstake⟩

theorem connectBlock_fails {host : Host} {s : State} :
    fails (connectBlock env host block pindex false) s = false ↔
      ∃ acc, connectBlockChecks env (s.ctx host) s.txdb block pindex false = .ok acc := by
  unfold fails connectBlock
  cases connectBlockChecks env (s.ctx host) s.txdb block pindex false <;> simp

theorem powSubsidy_bounds (h : Int) : 0 ≤ powSubsidy h ∧ powSubsidy h ≤ 20 * COIN := by
  unfold powSubsidy
  have hcoin : 0 < COIN := by decide
  split_ifs <;> omega

theorem exists_nHeight (f : BlockFields) (n : Nat) : ∃ tip : CBlockIndex, tip.nHeight = n := by
  induction n with
  | zero => exact ⟨.genesis f, rfl⟩
  | succ n ih =>
    obtain ⟨tip, htip⟩ := ih
    exact ⟨.child f tip, congrArg (· + 1) htip⟩

end Verdict

/-- `ConnectBlock` gives the same verdict under every best block exactly when the block fails
a check that does not look at it, or claims more than the largest subsidy ever, or is
signed under the strict rules and claims no subsidy. -/
theorem verdict_ignores_tip_iff (env : Env) (host : Host) (block : CBlock) (pindex : CBlockIndex)
    (s : State) :
    (∀ tip tip' : CBlockIndex,
      fails (connectBlock env host block pindex false) (s.newBest tip.getBlockHash tip) =
        fails (connectBlock env host block pindex false) (s.newBest tip'.getBlockHash tip')) ↔
    ¬ PassesFixedChecks env (s.ctx host) s.txdb block pindex ∨
    (block.isProofOfWork = true ∧
      feeTotal env s.mempool s.txdb.txIndex block pindex + 20 * COIN < coinbaseOut block) ∨
    (SignedBlock env s.mempool s.txdb.txIndex block pindex ∧
      (block.isProofOfWork = true →
        coinbaseOut block ≤ feeTotal env s.mempool s.txdb.txIndex block pindex)) := by
  have hverdict : ∀ tip : CBlockIndex,
      fails (connectBlock env host block pindex false) (s.newBest tip.getBlockHash tip) = false ↔
        PassesFixedChecks env (s.ctx host) s.txdb block pindex ∧
        ((tip.nHeight : Int) < getTotalBlocksEstimate ∨
          SignedBlock env s.mempool s.txdb.txIndex block pindex) ∧
        (block.isProofOfWork = true → coinbaseOut block ≤
          powSubsidy tip.nHeight + feeTotal env s.mempool s.txdb.txIndex block pindex) := by
    intro tip
    rw [connectBlock_fails, State.ctx_newBest]
    exact connectBlockChecks_withTip (s.ctx host) tip.nHeight
  constructor
  · intro hsame
    by_contra hnot
    push Not at hnot
    obtain ⟨hfixed, hclaim, hstrict⟩ := hnot
    -- a best block of height 100 lets the block pass, one at the last checkpoint does not
    obtain ⟨low, hlow⟩ := exists_nHeight pindex.fields 100
    obtain ⟨high, hhigh⟩ := exists_nHeight pindex.fields 200000
    have hpass := (hverdict low).mpr ⟨hfixed, .inl (by rw [hlow]; decide), fun hw => by
      have hsub : powSubsidy ((100 : Nat) : Int) = 20 * COIN := by decide
      rw [hlow, hsub]
      have := hclaim hw
      omega⟩
    rw [hsame low high, hverdict high] at hpass
    obtain ⟨_, hsig, hpow⟩ := hpass
    have hsigned := hsig.resolve_left (by rw [hhigh]; decide)
    obtain ⟨hw, hgt⟩ := hstrict hsigned
    have hsub : powSubsidy ((200000 : Nat) : Int) = 0 := by decide
    have hle := hpow hw
    rw [hhigh, hsub] at hle
    omega
  · intro hcond tip tip'
    have hiff : fails (connectBlock env host block pindex false)
        (s.newBest tip.getBlockHash tip) = false ↔
        fails (connectBlock env host block pindex false)
          (s.newBest tip'.getBlockHash tip') = false := by
      have hb := powSubsidy_bounds tip.nHeight
      have hb' := powSubsidy_bounds tip'.nHeight
      rw [hverdict, hverdict]
      rcases hcond with hno | ⟨hw, hmuch⟩ | ⟨hsigned, hpow⟩
      · simp [hno]
      · refine iff_of_false ?_ ?_ <;> rintro ⟨_, _, hle⟩ <;> have := hle hw <;> omega
      · refine and_congr_right fun _ => iff_of_true ?_ ?_
        · exact ⟨.inr hsigned, fun hw => by have := hpow hw; omega⟩
        · exact ⟨.inr hsigned, fun hw => by have := hpow hw; omega⟩
    exact Bool.eq_iff_iff.mpr (by simpa using not_congr hiff)

namespace Sample

def chainOf : Nat → CBlockIndex
  | 0 => genesisIndex
  | n + 1 => .child (fieldsOf (n + 1000) (UInt32.ofNat n) 8 (n + 2)) (chainOf n)

/-- A block of height 1 whose coinbase claims five coins, read from a node that has
connected nothing but the genesis block. -/
def claimBlock : CBlock := blockOf hashGenesisBlock 30 [coinbase 20 (5 * COIN)]

def claimIndex : CBlockIndex := .child (fieldsOf 30 30 400 2) genesisIndex

def claimEnv : Env := env [(claimIndex, claimBlock)]

def emptyNode : State := nodeWith fun _ => none

end Sample

/-- The block is refused on its parent and accepted while another branch of height 100 is
the best chain. -/
theorem claimBlock_verdict_differs :
    fails (connectBlock Sample.claimEnv { nAdjustedTime := 30 } Sample.claimBlock Sample.claimIndex
        false) (Sample.emptyNode.newBest Sample.genesisIndex.getBlockHash Sample.genesisIndex) = true ∧
      fails (connectBlock Sample.claimEnv { nAdjustedTime := 30 } Sample.claimBlock
        Sample.claimIndex false)
          (Sample.emptyNode.newBest (Sample.chainOf 100).getBlockHash (Sample.chainOf 100)) = false := by
  decide

end Triangles
