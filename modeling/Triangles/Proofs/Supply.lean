import Triangles.Proofs.Chain
import Triangles.Proofs.Undo
import Triangles.Proofs.Worth

/-! The money supply of the tip through any history of connected and disconnected blocks. -/

namespace Triangles

open Outcome Trace Ledger

/-- The block and its transactions can be read where the index entry says. `AcceptBlock`
writes a block before it indexes it. -/
structure OnDisk (env : Env) (block : CBlock) (pindex : CBlockIndex) : Prop where
  readBlock : env.readBlock pindex.fields.nFile pindex.fields.nBlockPos = some block
  readTx : ∀ x ∈ stored block pindex, env.readTx x.1 = some x.2

/-- One call on the tip, or anything else the node does that neither changes the transaction
index nor a recorded money supply. -/
inductive ChainStep (env : Env) : CBlockIndex × State → CBlockIndex × State → Prop
  | connect {host : Host} {block : CBlock} {tip pindex : CBlockIndex} {s t : State}
      (hprev : pindex.pprev = some tip) (hdisk : OnDisk env block pindex)
      (hconnect : connectBlock env host block pindex false s = .ok () t) :
      ChainStep env (tip, s) (pindex, t)
  | disconnect {block : CBlock} {tip pindex : CBlockIndex} {s t : State}
      (hprev : pindex.pprev = some tip) (hdisk : OnDisk env block pindex)
      (hdisconnect : disconnectBlock env block pindex s = .ok () t) :
      ChainStep env (pindex, s) (tip, t)
  | between {tip : CBlockIndex} {s t : State} (hindex : t.txdb.txIndex = s.txdb.txIndex)
      (hsupply : t.nMoneySupply = s.nMoneySupply) : ChainStep env (tip, s) (tip, t)

/-- Only the genesis block, whose transaction is never indexed. -/
def OnlyGenesis (x : CBlockIndex × State) : Prop :=
  (∃ fields, x.1 = .genesis fields) ∧ x.2.txdb.txIndex = (fun _ => none) ∧
    x.2.nMoneySupply x.1 = 0

namespace Ledger

/-- `V` is `W`, except that some entries without unspent outputs are missing. Disconnecting
a block that overwrote a spent transaction leaves such a gap. -/
def Trimmed (V W : TxIndexMap) : Prop := ∀ h, V h = W h ∨ V h = none ∧ NoUnspent W h

theorem NoUnspent.congr {V W : TxIndexMap} {h : uint256} (hv : V h = W h) (hn : NoUnspent V h) :
    NoUnspent W h := by
  rintro o rfl ⟨idx, hi, hs⟩
  exact hn o rfl ⟨idx, hv.trans hi, hs⟩

theorem Trimmed.trans {V W X : TxIndexMap} (hv : Trimmed V W) (hw : Trimmed W X) :
    Trimmed V X := by
  intro h
  rcases hv h with hvw | ⟨hv, hn⟩
  · rcases hw h with hwx | ⟨hw, hn⟩
    · exact .inl (hvw.trans hwx)
    · exact .inr ⟨hvw.trans hw, hn⟩
  · rcases hw h with hwx | ⟨_, hn'⟩
    · exact .inr ⟨hv, hn.congr hwx⟩
    · exact .inr ⟨hv, hn'⟩

theorem trimmed_eraseAll {V : TxIndexMap} {hs : List uint256} (hn : ∀ h ∈ hs, NoUnspent V h) :
    Trimmed (eraseAll V hs) V := by
  intro h
  by_cases hm : h ∈ hs
  · exact .inr ⟨eraseAll_of_mem hm, hn h hm⟩
  · exact .inl (eraseAll_of_not_mem hm)

/-- An entry that is there is the same one. -/
theorem Trimmed.present {V W : TxIndexMap} (ht : Trimmed V W) {h : uint256} {idx : CTxIndex}
    (hv : V h = some idx) : W h = some idx := by
  rcases ht h with he | ⟨hnone, _⟩
  · rw [← he, hv]
  · rw [hv] at hnone
    cases hnone

theorem Trimmed.unspent {V W : TxIndexMap} (ht : Trimmed V W) (o : COutPoint) :
    IsUnspent V o ↔ IsUnspent W o := by
  constructor
  · intro h
    obtain ⟨idx, hv, hs⟩ := h
    exact ⟨idx, ht.present hv, hs⟩
  · intro h
    obtain ⟨idx, hw, hs⟩ := h
    rcases ht o.hash with he | ⟨_, hn⟩
    · exact ⟨idx, he.trans hw, hs⟩
    · exact absurd ⟨idx, hw, hs⟩ (hn o rfl)

theorem Trimmed.worth {env : Env} {V W : TxIndexMap} {n : Int} (ht : Trimmed V W)
    (hw : Worth env W n) : Worth env V n := by
  obtain ⟨unspent, hmem, rfl⟩ := hw
  refine ⟨unspent, fun o => (hmem o).trans (ht.unspent o).symm, ?_⟩
  apply Finset.sum_congr rfl
  intro o ho
  obtain ⟨idx, hv, _⟩ := (ht.unspent o).mpr ((hmem o).mp ho)
  simp [outValue, hv, ht.present hv]

theorem Trimmed.onlyDisk {V W : TxIndexMap} (ht : Trimmed V W) (hd : OnlyDisk W) : OnlyDisk V :=
  fun h idx hv => hd h idx (ht.present hv)

/-- Undoing a transaction touches only entries that are there. -/
theorem Trimmed.undoTx {env : Env} {V W : TxIndexMap} (ht : Trimmed V W) {tx : CTransaction}
    (hslots : ∀ o ∈ spends tx, HasSlot V o) :
    Trimmed (Ledger.undoTx env V tx) (Ledger.undoTx env W tx) := by
  intro h
  unfold Ledger.undoTx
  by_cases hh : h = tx.getHash env
  · left
    rw [hh, Function.update_self, Function.update_self]
  · rw [Function.update_of_ne hh, Function.update_of_ne hh]
    rcases ht h with he | ⟨hnone, hn⟩
    · exact .inl (markAll_local he _)
    · right
      have hsame : markAll .null W (spends tx) h = W h := by
        apply markAll_outside
        rintro o ho rfl
        obtain ⟨idx, hv, _⟩ := hslots o ho
        rw [hnone] at hv
        cases hv
      refine ⟨markAll_none hnone, NoUnspent.congr ?_ hn⟩
      rw [Function.update_of_ne hh, hsame]

theorem Trimmed.undo_all {env : Env} {txs : List CTransaction} {V W : TxIndexMap}
    (ht : Trimmed V W)
    (hslots : ∀ x ∈ trace (Ledger.undoTx env) V txs, ∀ o ∈ spends x.2, HasSlot x.1 o) :
    Trimmed (txs.foldl (Ledger.undoTx env) V) (txs.foldl (Ledger.undoTx env) W) := by
  induction txs generalizing V W with
  | nil => exact ht
  | cons tx txs ih =>
    have hfirst : Trimmed (Ledger.undoTx env V tx) (Ledger.undoTx env W tx) :=
      ht.undoTx (hslots (V, tx) (by simp))
    exact ih hfirst (fun x hx => hslots x (by simp [hx]))

/-- The index of a chain with its recorded supplies: below the tip lies the index its block
was connected on. -/
inductive Backed (env : Env) (supply : CBlockIndex → Int) : CBlockIndex → TxIndexMap → Prop
  | genesis {fields : BlockFields} (hsupply : supply (.genesis fields) = 0) :
      Backed env supply (.genesis fields) (fun _ => none)
  | child {fields : BlockFields} {p : CBlockIndex} {V W : TxIndexMap} {block : CBlock} {ctx : Ctx}
      {acc : ConnectAcc} (below : Backed env supply p V)
      (hdisk : OnDisk env block (.child fields p))
      (connected : Connects env ctx V block (.child fields p) acc)
      (trimmed : Trimmed W (posted env V block (.child fields p)).index)
      (worth : Worth env W (supply (.child fields p))) (onlyDisk : OnlyDisk W) :
      Backed env supply (.child fields p) W

section Backed

variable {env : Env} {supply : CBlockIndex → Int} {tip : CBlockIndex} {V : TxIndexMap}

theorem worth_empty : Worth env (fun _ => none) 0 :=
  ⟨∅, by simp [IsUnspent], by simp⟩

theorem Backed.holds (h : Backed env supply tip V) : Worth env V (supply tip) ∧ OnlyDisk V := by
  cases h with
  | genesis hsupply =>
    rw [hsupply]
    exact ⟨worth_empty, fun _ _ h => by cases h⟩
  | child _ _ _ _ worth onlyDisk => exact ⟨worth, onlyDisk⟩

theorem Backed.trim {W : TxIndexMap} (h : Backed env supply tip V) (ht : Trimmed W V) :
    Backed env supply tip W := by
  cases h with
  | genesis hsupply =>
    have hw : W = fun _ => none := by
      funext h
      rcases ht h with he | ⟨he, _⟩ <;> exact he
    rw [hw]
    exact .genesis hsupply
  | child below hdisk connected trimmed worth onlyDisk =>
    exact .child below hdisk connected (ht.trans trimmed) (ht.worth worth) (ht.onlyDisk onlyDisk)

/-- Only the supplies recorded along the chain matter. -/
theorem Backed.congr {supply' : CBlockIndex → Int} (h : Backed env supply tip V)
    (heq : ∀ a ∈ tip.ancestors, supply' a = supply a) : Backed env supply' tip V := by
  induction h with
  | genesis hsupply => exact .genesis ((heq _ (by simp [CBlockIndex.ancestors])).trans hsupply)
  | child _ hdisk connected trimmed worth onlyDisk ih =>
    refine .child (ih fun a ha => heq a (List.mem_cons_of_mem _ ha)) hdisk connected trimmed ?_
      onlyDisk
    rwa [heq _ (by simp [CBlockIndex.ancestors])]

/-- Connecting a block records the new supply. -/
theorem Backed.connect {fields : BlockFields} {block : CBlock} {ctx : Ctx} {acc : ConnectAcc}
    (h : Backed env supply tip V) (hdisk : OnDisk env block (.child fields tip))
    (hc : Connects env ctx V block (.child fields tip) acc) :
    Backed env
      (Function.update supply (.child fields tip) (supply tip + acc.nValueOut - acc.nValueIn))
      (.child fields tip) (posted env V block (.child fields tip)).index := by
  obtain ⟨hw, hd⟩ := h.holds
  obtain ⟨hworth, honly⟩ := Worth.post_all ctx.mempool block.vtx
    (opened V block (.child fields tip)) hw hd hc.admits hc.layout.valid hc.layout.distinct hc.ids
    (fun x hx => hdisk.readTx (_, x.2) (List.mem_map_of_mem hx))
  refine .child (h.congr ?_) hdisk hc (fun k => .inl rfl) ?_ honly
  · intro a ha
    apply Function.update_of_ne
    rintro rfl
    exact CBlockIndex.child_not_ancestor ha
  · rw [Function.update_self, hc.valueOut, hc.valueIn, add_sub_assoc]
    exact hworth

/-- Undoing the tip's block leads back to the chain below. -/
theorem Backed.disconnect {fields : BlockFields} {block : CBlock} {p : CBlockIndex}
    (h : Backed env supply (.child fields p) V) (hdisk : OnDisk env block (.child fields p))
    (hslots : ∀ x ∈ trace (undoTx env) V block.vtx.reverse, ∀ o ∈ spends x.2, HasSlot x.1 o) :
    Backed env supply p (block.vtx.reverse.foldl (undoTx env) V) := by
  cases h with
  | child below hdisk' connected trimmed worth onlyDisk =>
    obtain rfl : _ = block :=
      Option.some.inj (hdisk'.readBlock.symm.trans hdisk.readBlock)
    have ht := trimmed.undo_all hslots
    rw [connected.undo.1] at ht
    exact below.trim (ht.trans (trimmed_eraseAll connected.ids))

end Backed

end Ledger

theorem nMoneySupply_afterConnect {env : Env} {block : CBlock} {fields : BlockFields}
    {tip : CBlockIndex} {acc : ConnectAcc} (s : State) :
    (s.afterConnect env block (.child fields tip) false acc).nMoneySupply =
      Function.update s.nMoneySupply (.child fields tip)
        (s.nMoneySupply tip + acc.nValueOut - acc.nValueIn) := rfl

theorem ChainStep.backed {env : Env} {x y : CBlockIndex × State} (h : ChainStep env x y)
    (hb : Backed env x.2.nMoneySupply x.1 x.2.txdb.txIndex) :
    Backed env y.2.nMoneySupply y.1 y.2.txdb.txIndex := by
  cases h with
  | connect hprev hdisk hconnect =>
    obtain ⟨fields, rfl⟩ := CBlockIndex.pprev_eq_some hprev
    obtain ⟨acc, hacc, rfl, hindex⟩ := connectBlock_spec hconnect
    rw [hindex, nMoneySupply_afterConnect]
    exact hb.connect hdisk (connectBlockChecks_spec hacc)
  | disconnect hprev hdisk hdisconnect =>
    obtain ⟨fields, rfl⟩ := CBlockIndex.pprev_eq_some hprev
    obtain ⟨hslots, hindex, hframe⟩ := disconnectBlock_spec hdisconnect
    rw [hindex, hframe]
    exact hb.disconnect hdisk hslots
  | between hindex hsupply =>
    rw [hindex, hsupply]
    exact hb

/-- After any history of connected and disconnected blocks, the tip's `nMoneySupply` is what
the unspent outputs of the index are worth. -/
theorem money_supply_is_worth {env : Env} {start x : CBlockIndex × State}
    (hstart : OnlyGenesis start) (hrun : Relation.ReflTransGen (ChainStep env) start x) :
    Worth env x.2.txdb.txIndex (x.2.nMoneySupply x.1) := by
  have hb : Backed env x.2.nMoneySupply x.1 x.2.txdb.txIndex := by
    induction hrun with
    | refl =>
      obtain ⟨⟨fields, hgenesis⟩, hindex, hsupply⟩ := hstart
      rw [hindex]
      rw [hgenesis] at hsupply ⊢
      exact .genesis hsupply
    | tail _ step ih => exact step.backed ih
  exact hb.holds.1

namespace Sample

def coinBlock : CBlock := blockOf hashGenesisBlock 30 [coinbase 20 COIN]

def coinEnv : Env := env [(spendIndex, coinBlock)]

theorem coinBlock_onDisk : OnDisk coinEnv coinBlock spendIndex where
  readBlock := by decide
  readTx := by decide

end Sample

theorem money_supply_of_coinBlock :
    ∃ t u, connectBlock Sample.coinEnv { nAdjustedTime := 30 } Sample.coinBlock Sample.spendIndex
        false (Sample.nodeWith fun _ => none) = .ok () t ∧
      disconnectBlock Sample.coinEnv Sample.coinBlock Sample.spendIndex t = .ok () u ∧
      Worth Sample.coinEnv t.txdb.txIndex (t.nMoneySupply Sample.spendIndex) ∧
      Worth Sample.coinEnv u.txdb.txIndex (u.nMoneySupply Sample.genesisIndex) := by
  have hstart : OnlyGenesis (Sample.genesisIndex, Sample.nodeWith fun _ => none) :=
    ⟨⟨_, rfl⟩, rfl, rfl⟩
  obtain ⟨t, ht⟩ := connectBlock_of_checks Sample.coinEnv { nAdjustedTime := 30 }
    Sample.coinBlock Sample.spendIndex (Sample.nodeWith fun _ => none) (by decide)
  obtain ⟨acc, hacc, _, hposted⟩ := connectBlock_spec ht
  have hslots := (connectBlockChecks_spec hacc).undo.2
  rw [← hposted] at hslots
  obtain ⟨u, hu⟩ := disconnectBlock_succeeds Sample.spendIndex hslots
  have hconnect : ChainStep Sample.coinEnv (Sample.genesisIndex, Sample.nodeWith fun _ => none)
      (Sample.spendIndex, t) := .connect rfl Sample.coinBlock_onDisk ht
  have hdisconnect : ChainStep Sample.coinEnv (Sample.spendIndex, t) (Sample.genesisIndex, u) :=
    .disconnect rfl Sample.coinBlock_onDisk hu
  exact ⟨t, u, ht, hu, money_supply_is_worth hstart (.single hconnect),
    money_supply_is_worth hstart (.tail (.single hconnect) hdisconnect)⟩

end Triangles

/-! How much value a connected block creates. -/

namespace Triangles

open Outcome Trace Ledger

def outputTotal (block : CBlock) : Int := (block.vtx.map CTransaction.valueOut).sum

/-- The values of all outputs its transactions spend, each looked up in the index that the
transaction meets. -/
def inputTotal (env : Env) (pool : CTxMemPool) (V : TxIndexMap) (block : CBlock)
    (pindex : CBlockIndex) : Int :=
  total (Book.post env pindex) (fun b tx => valueIn env pool b.index tx) (opened V block pindex)
    block.vtx

def netValue (env : Env) (pool : CTxMemPool) (V : TxIndexMap) (block : CBlock)
    (pindex : CBlockIndex) : Int :=
  outputTotal block - inputTotal env pool V block pindex

def stakeGain (env : Env) (pool : CTxMemPool) (V : TxIndexMap) (block : CBlock)
    (pindex : CBlockIndex) : Int :=
  total (Book.post env pindex)
    (fun b tx => if tx.isCoinStake then gainOf env pool b.index tx else 0)
    (opened V block pindex) block.vtx

def feeTotal (env : Env) (pool : CTxMemPool) (V : TxIndexMap) (block : CBlock)
    (pindex : CBlockIndex) : Int :=
  total (Book.post env pindex) (fun b tx => feeOf env pool b.index tx) (opened V block pindex)
    block.vtx

def coinbaseOut (block : CBlock) : Int := (block.vtx.head?.map CTransaction.valueOut).getD 0

/-- The block creates no more than its kind of block may. -/
def WithinReward (env : Env) (ctx : Ctx) (txdb : CTxDB) (block : CBlock) (pindex : CBlockIndex) :
    Prop :=
  (block.isProofOfWork = true → netValue env ctx.mempool txdb.txIndex block pindex ≤
    getProofOfWorkReward ctx.nHeightBest 0) ∧
  (block.isProofOfStake = true → ∃ coinstake, ∃ nCoinAge : Nat, block.vtx[1]? = some coinstake ∧
    coinstake.getCoinAge env txdb = .ok nCoinAge ∧
      netValue env ctx.mempool txdb.txIndex block pindex ≤
        getProofOfStakeReward (int64 nCoinAge) 0)

section Amounts

variable {env : Env} {pool : CTxMemPool} {pindex : CBlockIndex}

theorem valueIn_coinBase {V : TxIndexMap} {tx : CTransaction} (hc : tx.isCoinBase = true) :
    valueIn env pool V tx = 0 := by simp [valueIn, spends, hc]

/-- Every transaction is a coinbase, a coinstake or pays a fee. -/
theorem gain_split (V : TxIndexMap) (tx : CTransaction) :
    gainOf env pool V tx + feeOf env pool V tx =
      (if tx.isCoinBase then tx.valueOut else 0) +
        (if tx.isCoinStake then gainOf env pool V tx else 0) := by
  cases hc : tx.isCoinBase with
  | true => simp [gainOf, feeOf, hc, valueIn_coinBase hc, coinBase_not_coinStake hc]
  | false => cases hs : tx.isCoinStake <;> simp [gainOf, feeOf, hc, hs]

theorem coinbase_total (env : Env) (pindex : CBlockIndex) (b : Book) {coinbase : CTransaction}
    {rest : List CTransaction}
    (hc : coinbase.isCoinBase = true) (hrest : ∀ tx ∈ rest, tx.isCoinBase = false) :
    total (Book.post env pindex) (fun _ tx => if tx.isCoinBase then tx.valueOut else 0) b
      (coinbase :: rest) = coinbase.valueOut := by
  rw [total_cons, total_zero, if_pos hc, add_zero]
  intro x hx
  simp [hrest x.2 (mem_of_trace hx)]

/-- The net value is what the coinbase and the coinstakes take, less the fees. -/
theorem netValue_eq (pool : CTxMemPool) (pindex : CBlockIndex) (V : TxIndexMap) {block : CBlock}
    (hl : Layout env block) :
    netValue env pool V block pindex =
      coinbaseOut block + stakeGain env pool V block pindex -
        feeTotal env pool V block pindex := by
  obtain ⟨coinbase, rest, hv, hc, hrest⟩ := hl.coinbase
  have hgain := total_add (Book.post env pindex) (fun b tx => gainOf env pool b.index tx)
    (fun b tx => valueIn env pool b.index tx) (opened V block pindex) block.vtx
  have hout : total (Book.post env pindex) (fun b tx => gainOf env pool b.index tx +
      valueIn env pool b.index tx) (opened V block pindex) block.vtx = outputTotal block := by
    rw [outputTotal, ← total_items (Book.post env pindex) CTransaction.valueOut
      (opened V block pindex)]
    exact total_congr fun x _ => by simp [gainOf]
  have hsplit := total_add (Book.post env pindex) (fun b tx => gainOf env pool b.index tx)
    (fun b tx => feeOf env pool b.index tx) (opened V block pindex) block.vtx
  have hparts := total_add (Book.post env pindex)
    (fun _ tx => if tx.isCoinBase then tx.valueOut else 0)
    (fun b tx => if tx.isCoinStake then gainOf env pool b.index tx else 0)
    (opened V block pindex) block.vtx
  have hclasses : total (Book.post env pindex) (fun b tx => gainOf env pool b.index tx +
      feeOf env pool b.index tx) (opened V block pindex) block.vtx = _ :=
    total_congr (e := fun b tx => (if tx.isCoinBase then tx.valueOut else 0) +
      (if tx.isCoinStake then gainOf env pool b.index tx else 0)) fun x _ => gain_split x.1.index x.2
  have hcb := coinbase_total env pindex (opened V block pindex) hc hrest
  rw [← hv] at hcb
  have hhead : coinbaseOut block = coinbase.valueOut := by simp [coinbaseOut, hv]
  unfold netValue inputTotal stakeGain feeTotal
  omega

end Amounts

section Rewards

variable {env : Env} {ctx : Ctx} {txdb : CTxDB} {block : CBlock} {pindex : CBlockIndex}
  {acc : ConnectAcc}

theorem checkPowReward_spec {nFees : Int} (h : checkPowReward ctx block nFees = .ok ()) :
    coinbaseOut block ≤ getProofOfWorkReward ctx.nHeightBest 0 + nFees := by
  unfold checkPowReward at h
  split at h
  · cases h
  · rename_i coinbase rest hv
    simp only [bind_ok, check_ok] at h
    obtain ⟨n, hn, hle⟩ := h
    have hle := of_decide_eq_true hle
    rw [get_value_out_ok hn] at hle
    simp only [coinbaseOut, hv, List.head?_cons, Option.map_some, Option.getD_some]
    simpa [getProofOfWorkReward] using hle

theorem checkStakeReward_spec {nStakeReward nFees : Int}
    (h : checkStakeReward env txdb block nStakeReward nFees = .ok ()) :
    ∃ coinstake, ∃ nCoinAge : Nat, block.vtx[1]? = some coinstake ∧
      coinstake.getCoinAge env txdb = .ok nCoinAge ∧
        nStakeReward ≤ getProofOfStakeReward (int64 nCoinAge) 0 + nFees := by
  unfold checkStakeReward at h
  split at h
  · rename_i coinbase coinstake rest hv
    split at h
    · cases h
    · rename_i nCoinAge hage
      refine ⟨coinstake, nCoinAge, by simp [hv], hage, ?_⟩
      simpa [getProofOfStakeReward] using of_decide_eq_true (check_ok.mp h)
  · cases h

/-- Without a coinstake the recorded stake reward stays. -/
theorem stakeReward_kept {vtx : List CTransaction} {acc acc' : ConnectAcc}
    (h : vtx.foldlM (connectTx env ctx txdb pindex false) acc = .ok acc')
    (hs : ∀ tx ∈ vtx, tx.isCoinStake = false) : acc'.nStakeReward = acc.nStakeReward := by
  induction vtx generalizing acc with
  | nil =>
    simp only [List.foldlM_nil, pure_ok] at h
    rw [h]
  | cons tx vtx ih =>
    simp only [List.foldlM_cons, bind_ok] at h
    obtain ⟨acc₁, h₁, h₂⟩ := h
    rw [ih h₂ (fun t ht => hs t (by simp [ht])), (connectTx_spec h₁).stake,
      hs tx (by simp)]
    rfl

/-- The one coinstake of a proof-of-stake block is the whole stake gain, and it is what
`ConnectBlock` compares with the reward. -/
theorem stakeReward_eq (h : connectBlockChecks env ctx txdb block pindex false = .ok acc)
    (hs : block.isProofOfStake = true) :
    acc.nStakeReward = stakeGain env ctx.mempool txdb.txIndex block pindex ∧
      coinbaseOut block = 0 := by
  obtain ⟨hcheck, hloop, _, _⟩ := connectBlockChecks_iff.mp h
  obtain ⟨coinbase, coinstake, rest, hv, hzero, hstake, hrest⟩ := (checkBlock_spec hcheck).stake hs
  obtain ⟨cb, rest', hv', hcb, _⟩ := (checkBlock_spec hcheck).coinbase
  have hne : coinbase.isCoinStake = false := by
    rw [hv] at hv'
    cases hv'
    exact coinBase_not_coinStake hcb
  refine ⟨?_, by simp [coinbaseOut, hv, hzero]⟩
  rw [hv] at hloop
  simp only [List.foldlM_cons, bind_ok] at hloop
  obtain ⟨acc₁, h₁, acc₂, h₂, h₃⟩ := hloop
  rw [stakeReward_kept h₃ hrest, (connectTx_spec h₂).stake, stakeGain, hv]
  simp only [total_cons, hne, hstake, Bool.false_eq_true, ↓reduceIte]
  have hlate : total (Book.post env pindex)
      (fun b tx => if tx.isCoinStake then gainOf env ctx.mempool b.index tx else 0)
      (((opened txdb.txIndex block pindex).post env pindex coinbase).post env pindex coinstake)
      rest = 0 :=
    total_zero fun x hx => by simp [hrest x.2 (mem_of_trace hx)]
  rw [hlate, (connectTx_spec h₁).book]
  simp only [zero_add, add_zero]
  rfl

/-- Once the checks have passed, what is left to show is that coinstakes gain no more than the coinbase
has left unclaimed. -/
theorem within_reward_iff
    (h : connectBlockChecks env ctx txdb block pindex false = .ok acc) :
    WithinReward env ctx txdb block pindex ↔
      (block.isProofOfStake = true ∨
        stakeGain env ctx.mempool txdb.txIndex block pindex ≤
          getProofOfWorkReward ctx.nHeightBest
            (feeTotal env ctx.mempool txdb.txIndex block pindex) - coinbaseOut block) := by
  have hspec := connectBlockChecks_spec h
  obtain ⟨_, _, hpow, hpos⟩ := connectBlockChecks_iff.mp h
  have hnet := netValue_eq ctx.mempool pindex txdb.txIndex hspec.layout
  cases hs : block.isProofOfStake with
  | true =>
    obtain ⟨hstake, hzero⟩ := stakeReward_eq h hs
    obtain ⟨coinstake, nCoinAge, hv, hage, hle⟩ := checkStakeReward_spec (hpos hs)
    have hfees : acc.nFees = feeTotal env ctx.mempool txdb.txIndex block pindex := hspec.fees
    refine iff_of_true ⟨?_, ?_⟩ (.inl rfl)
    · simp [CBlock.isProofOfWork, hs]
    · intro _
      refine ⟨coinstake, nCoinAge, hv, hage, ?_⟩
      omega
  | false =>
    have hw : block.isProofOfWork = true := by simp [CBlock.isProofOfWork, hs]
    simp only [WithinReward, hw, hs, forall_const, Bool.false_eq_true, false_or,
      false_implies, and_true]
    unfold getProofOfWorkReward
    omega

/-- A proof-of-work block holds nothing in coinstake form before its third place. -/
theorem early_coinStake (hl : Layout env block) (hs : block.isProofOfStake = false) :
    ∀ tx ∈ block.vtx.take 2, tx.isCoinStake = false := by
  obtain ⟨coinbase, rest, hv, hcb, _⟩ := hl.coinbase
  intro tx hm
  rw [hv] at hm
  cases rest with
  | nil =>
    obtain rfl := List.mem_singleton.mp hm
    exact coinBase_not_coinStake hcb
  | cons second rest =>
    obtain rfl | hm := List.mem_cons.mp hm
    · exact coinBase_not_coinStake hcb
    · obtain rfl := List.mem_singleton.mp hm
      simpa [CBlock.isProofOfStake, hv] using hs

/-- `ConnectBlock` returns true only for blocks within the reward, if no transaction in coinstake form
from the third place of a proof-of-work block on pays out more than it takes in. -/
theorem connected_within_reward {host : Host} {s t : State}
    (h : connectBlock env host block pindex false s = .ok () t)
    (hstakes : block.isProofOfStake = true ∨
      ∀ x ∈ (trace (Book.post env pindex) (opened s.txdb.txIndex block pindex) block.vtx).drop 2,
        x.2.isCoinStake = true → x.2.valueOut ≤ valueIn env s.mempool x.1.index x.2) :
    WithinReward env (s.ctx host) s.txdb block pindex := by
  obtain ⟨acc, hacc, _, _⟩ := connectBlock_spec h
  have hspec := connectBlockChecks_spec hacc
  refine (within_reward_iff hacc).mpr (or_iff_not_imp_left.mpr fun hs => ?_)
  have hpow : block.isProofOfStake = false := by simpa using hs
  have hw : block.isProofOfWork = true := by simp [CBlock.isProofOfWork, hpow]
  have hgain : stakeGain env s.mempool s.txdb.txIndex block pindex ≤ 0 := by
    refine total_nonpos fun x hx => ?_
    by_cases hc : x.2.isCoinStake = true
    · rw [if_pos hc, gainOf]
      rw [← List.take_append_drop 2 (trace _ _ _)] at hx
      obtain hx | hx := List.mem_append.mp hx
      · have hfront := List.mem_map_of_mem (f := Prod.snd) hx
        rw [List.map_take, trace_items] at hfront
        rw [early_coinStake hspec.layout hpow _ hfront] at hc
        cases hc
      · have hpays := hstakes.resolve_left hs x hx hc
        omega
    · rw [if_neg hc]
  have hreward := checkPowReward_spec ((connectBlockChecks_iff.mp hacc).2.2.1 hw)
  have hfees : acc.nFees = feeTotal env s.mempool s.txdb.txIndex block pindex := hspec.fees
  rw [hfees] at hreward
  unfold getProofOfWorkReward at hreward ⊢
  show stakeGain env s.mempool s.txdb.txIndex block pindex ≤
    _ + feeTotal env s.mempool s.txdb.txIndex block pindex - _
  omega

end Rewards

theorem spendBlock_within_reward : WithinReward Sample.spendEnv
    (Sample.fundedNode.ctx { nAdjustedTime := 30 }) Sample.fundedNode.txdb Sample.spendBlock
    Sample.spendIndex := by
  obtain ⟨t, ht⟩ := connectBlock_of_checks Sample.spendEnv { nAdjustedTime := 30 }
    Sample.spendBlock Sample.spendIndex Sample.fundedNode (by decide)
  exact connected_within_reward ht (.inr (by
    rintro x hx hc
    have hnone : ∀ tx ∈ Sample.spendBlock.vtx, tx.isCoinStake = false := by decide
    rw [hnone x.2 (mem_of_trace (List.mem_of_mem_drop hx))] at hc
    cases hc))

namespace Sample

def mint : CTransaction where
  nTime := 22
  vin := [{ prevout := ⟨10, 1⟩, scriptSig := opTrue }]
  vout := [⟨0, []⟩, ⟨100 * COIN, opTrue⟩]

def mintBlock : CBlock :=
  blockOf hashGenesisBlock 30 [coinbase 20 0, transfer 21 [⟨10, 0⟩] [4800], mint]

def mintEnv : Env := env [(fundIndex, fundBlock), (spendIndex, mintBlock)]

end Sample

/-- A proof-of-work block of three transactions that creates 99.9948 coins where one is allowed. -/
theorem mintBlock_exceeds_reward :
    ∃ t, connectBlock Sample.mintEnv { nAdjustedTime := 30 } Sample.mintBlock Sample.spendIndex
        false Sample.fundedNode = .ok () t ∧
      ¬ WithinReward Sample.mintEnv (Sample.fundedNode.ctx { nAdjustedTime := 30 })
        Sample.fundedNode.txdb Sample.mintBlock Sample.spendIndex := by
  obtain ⟨t, ht⟩ := connectBlock_of_checks Sample.mintEnv { nAdjustedTime := 30 }
    Sample.mintBlock Sample.spendIndex Sample.fundedNode (by decide)
  refine ⟨t, ht, fun hw => ?_⟩
  have hle := hw.1 (by decide)
  exact absurd hle (by decide)

end Triangles
