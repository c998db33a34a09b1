import Triangles.Proofs.BlockSpec

/-! `DisconnectBlock` is the inverse of `ConnectBlock` on the transaction index. -/

namespace Triangles

open Outcome Ledger

theorem Ledger.Connects.ids {env : Env} {ctx : Ctx} {V : TxIndexMap} {block : CBlock}
    {pindex : CBlockIndex} {acc : ConnectAcc} (h : Connects env ctx V block pindex acc) :
    ∀ k ∈ block.vtx.map (CTransaction.getHash env), NoUnspent V k := by
  intro k hk
  obtain ⟨tx, hm, rfl⟩ := List.mem_map.mp hk
  exact h.overwrites tx hm

/-- Undoing a connected block leaves the index without the block's ids. -/
theorem Ledger.Connects.undo {env : Env} {ctx : Ctx} {V : TxIndexMap} {block : CBlock}
    {pindex : CBlockIndex} {acc : ConnectAcc} (h : Connects env ctx V block pindex acc) :
    block.vtx.reverse.foldl (undoTx env) (posted env V block pindex).index =
        eraseAll V (block.vtx.map (CTransaction.getHash env)) ∧
      ∀ x ∈ Trace.trace (undoTx env) (posted env V block pindex).index block.vtx.reverse,
        ∀ o ∈ spends x.2, HasSlot x.1 o :=
  undo_posted block.vtx (opened V block pindex)
    (fun x hx => ⟨(h.admits x hx).distinct, (h.admits x hx).unspent⟩) h.layout.distinct h.ids

/-- After `ConnectBlock`, `DisconnectBlock` succeeds and gives back the unspent outpoints;
when none of the block's ids was indexed it gives back the whole index. -/
theorem disconnect_undoes_connect {env : Env} {host : Host} {block : CBlock}
    {pindex : CBlockIndex} {s t : State}
    (h : connectBlock env host block pindex false s = .ok () t) :
    ∃ u, disconnectBlock env block pindex t = .ok () u ∧
      (∀ o, IsUnspent u.txdb.txIndex o ↔ IsUnspent s.txdb.txIndex o) ∧
      ((∀ tx ∈ block.vtx, s.txdb.txIndex (tx.getHash env) = none) →
        u.txdb.txIndex = s.txdb.txIndex) := by
  obtain ⟨acc, hacc, _, hposted⟩ := connectBlock_spec h
  have hc := connectBlockChecks_spec hacc
  obtain ⟨hundo, hslots⟩ := hc.undo
  rw [← hposted] at hundo hslots
  obtain ⟨u, hu⟩ := disconnectBlock_succeeds pindex hslots
  have hindex : u.txdb.txIndex =
      eraseAll s.txdb.txIndex (block.vtx.map (CTransaction.getHash env)) :=
    (disconnectBlock_spec hu).2.1.trans hundo
  refine ⟨u, hu, ?_, ?_⟩
  · rw [hindex]
    exact unspent_eraseAll hc.ids
  · intro hnone
    rw [hindex]
    apply eraseAll_absent
    intro k hk
    obtain ⟨tx, hm, rfl⟩ := List.mem_map.mp hk
    exact hnone tx hm

/-- When the checks pass, `ConnectBlock` returns true. -/
theorem connectBlock_of_checks (env : Env) (host : Host) (block : CBlock) (pindex : CBlockIndex)
    (s : State)
    (h : succeeds (connectBlockChecks env (s.ctx host) s.txdb block pindex false) = true) :
    ∃ t, connectBlock env host block pindex false s = .ok () t := by
  obtain ⟨acc, hacc⟩ := succeeds_iff.mp h
  exact ⟨s.afterConnect env block pindex false acc, by simp only [connectBlock, hacc]⟩

namespace Sample

/-! A small chain to run the functions on. Times serve as hashes. -/

def opTrue : CScript := [0x51]

/-- An environment over the given blocks; scripts succeed when the signature is `OP_1`. -/
def env (disk : List (CBlockIndex × CBlock)) : Env where
  serializeHash tx := tx.nTime.toNat
  hash9 header := if header.nTime = 0 then hashGenesisBlock else header.nTime.toNat
  hashPair a b := 2 * a + b
  hashSelection h m := h + m.toNat
  hashKernel m a b c d e := m.toNat + a.toNat + b.toNat + c.toNat + d.toNat + e.toNat
  verifyScript _ scriptSig _ _ _ := scriptSig == opTrue
  checkBlockSignature _ := true
  isStandard _ := true
  fTestNet := false
  readTx pos := (disk.flatMap fun x => stored x.2 x.1).lookup pos
  readBlock nFile nBlockPos := (disk.find? fun x =>
    x.1.fields.nFile == nFile && x.1.fields.nBlockPos == nBlockPos).map Prod.snd
  readHeader nFile nBlockPos := (disk.find? fun x =>
    x.1.fields.nFile == nFile && x.1.fields.nBlockPos == nBlockPos).map fun x => x.2.toCBlockHeader

def coinbase (nTime : UInt32) (nValue : Int) (nHeight : UInt8 := 1) : CTransaction where
  nTime := nTime
  vin := [{ prevout := ⟨0, 0xffffffff⟩, scriptSig := [0x50 + nHeight, 0] }]
  vout := [⟨nValue, opTrue⟩]

def transfer (nTime : UInt32) (prevouts : List COutPoint) (values : List Int) : CTransaction where
  nTime := nTime
  vin := prevouts.map fun o => { prevout := o, scriptSig := opTrue }
  vout := values.map fun v => ⟨v, opTrue⟩

def blockOf (hashPrevBlock : uint256) (nTime : UInt32) (vtx : List CTransaction) : CBlock :=
  let block : CBlock :=
    { hashPrevBlock := hashPrevBlock, hashMerkleRoot := 0, nTime := nTime, nBits := 0x1d00ffff,
      vtx := vtx }
  { block with hashMerkleRoot := block.buildMerkleTree (env []) }

def fieldsOf (phashBlock : uint256) (nTime nBlockPos : UInt32) (nChainTrust : uint256) :
    BlockFields where
  phashBlock := phashBlock
  nFile := 1
  nBlockPos := if 8 ≤ nBlockPos then nBlockPos else 8
  nFile_ne := by decide
  nBlockPos_ge := by
    split
    · assumption
    · decide
  nChainTrust := nChainTrust
  nTime := nTime

def genesisIndex : CBlockIndex := .genesis (fieldsOf hashGenesisBlock 0 8 1)

def nodeWith (txindex : uint256 → Option CTxIndex) : State where
  txdb := { committed := fun
              | .tx h => txindex h
              | .hashBestChain => some hashGenesisBlock
              | _ => none
            batch := none }
  pnext _ := none
  nMint _ := 0
  nMoneySupply _ := 0
  pindexGenesisBlock := some genesisIndex
  pindexBest := some genesisIndex
  hashBestChain := hashGenesisBlock
  nBestHeight := 0
  nBestChainTrust := 1
  nBestInvalidTrust := 0
  mempool := .empty
  wallets := []

/-- A transaction already in the index, and a block that spends it: its third transaction
takes both outputs of its second. -/
def fund : CTransaction := transfer 10 [⟨999, 0⟩] [5000, 5000]

def fundIndex : CBlockIndex := .genesis (fieldsOf 5 5 100 1)

def fundBlock : CBlock := blockOf 0 15 [fund]

def spendBlock : CBlock :=
  blockOf hashGenesisBlock 30
    [coinbase 20 0, transfer 21 [⟨10, 0⟩] [4000, 800], transfer 22 [⟨21, 0⟩, ⟨21, 1⟩] [4600]]

def spendIndex : CBlockIndex := .child (fieldsOf 30 30 400 2) genesisIndex

def spendEnv : Env := env [(fundIndex, fundBlock), (spendIndex, spendBlock)]

def fundedNode : State := nodeWith fun h =>
  if h = 10 then some (.fresh (fundIndex.posOf (firstTxPos fundBlock fundIndex false)) 2) else none

end Sample

theorem disconnect_undoes_spendBlock :
    ∃ t u, connectBlock Sample.spendEnv { nAdjustedTime := 30 } Sample.spendBlock
        Sample.spendIndex false Sample.fundedNode = .ok () t ∧
      disconnectBlock Sample.spendEnv Sample.spendBlock Sample.spendIndex t = .ok () u ∧
      u.txdb.txIndex = Sample.fundedNode.txdb.txIndex := by
  obtain ⟨t, ht⟩ := connectBlock_of_checks Sample.spendEnv { nAdjustedTime := 30 }
    Sample.spendBlock Sample.spendIndex Sample.fundedNode (by decide)
  obtain ⟨u, hu, _, hexact⟩ := disconnect_undoes_connect ht
  refine ⟨t, u, ht, hu, hexact ?_⟩
  decide

end Triangles
