import Triangles.Proofs.AcceptSpec
import Triangles.Proofs.LoadSpec

/-! Restarting the node: whether `LoadBlockIndex` brings back the block index. -/

namespace Triangles

open Outcome Batch CBlockIndex

/-- The loaded index is the one in memory, the amounts apart. -/
structure Reproduces (n : FullNode) (g : Loaded) : Prop where
  entries : ∀ h, g.entryAt h = (n.mapBlockIndex.find h).map (CBlockIndex.entry n.pnext)
  setStakeSeen : g.setStakeSeen = n.setStakeSeen
  pindexBest : g.pindexBest = n.pindexBest.map getBlockHash
  nBestHeight : g.nBestHeight = n.nBestHeight
  nBestChainTrust : g.nBestChainTrust = n.nBestChainTrust

structure FreshNode (n : FullNode) : Prop where
  mapBlockIndex : ∀ h, n.mapBlockIndex.find h = none
  setStakeSeen : n.setStakeSeen = ∅
  unstarted : Unstarted n.toState
  nBestHeight : n.nBestHeight = -1
  nBestChainTrust : n.nBestChainTrust = 0
  records : ∀ h, n.txdb.committed (.blockindex h) = none
  best : n.txdb.committed .hashBestChain = none

structure Beside (n t : FullNode) : Prop extends SameIndex n t where
  pnext : t.pnext = n.pnext
  pindexGenesisBlock : t.pindexGenesisBlock = n.pindexGenesisBlock
  pindexBest : t.pindexBest = n.pindexBest
  hashBestChain : t.hashBestChain = n.hashBestChain
  nBestHeight : t.nBestHeight = n.nBestHeight
  nBestChainTrust : t.nBestChainTrust = n.nBestChainTrust
  records : ∀ h, t.txdb.committed (.blockindex h) = n.txdb.committed (.blockindex h)
  best : t.txdb.committed .hashBestChain = n.txdb.committed .hashBestChain

/-- A call that returns true has connected all the blocks it intended to. -/
def ConnectsIntended (env : Env) (host : Host) (block : CBlock) (pindexNew : CBlockIndex)
    (s : State) : Prop :=
  fails (setBestChain env host block pindexNew) s = false →
    postponedConnect env host block pindexNew s = true

def CDiskBlockIndex.fresh (pindexNew : CBlockIndex) : CDiskBlockIndex where
  pindex := pindexNew
  nMint := 0
  nMoneySupply := 0
  hashNext := 0

/-- The database does not fail to write the record of a block that `AddToBlockIndex` enters. -/
def RecordCommits (env : IndexEnv) (host : Host) (block : CBlock) (spot : DiskSpot)
    (hashProofOfStake : uint256) (n : FullNode) : Prop :=
  ∀ pindexNew, n.mapBlockIndex.find (block.getHash env.toEnv) = none →
    newBlockIndex env n.mapBlockIndex block spot hashProofOfStake = .ok pindexNew →
    host.commitFails (n.txnBegin.txdb.writeBlockIndex (.fresh pindexNew)) = false

def State.recorded (s : State) (pindexNew : CBlockIndex) : State :=
  { s with
    pnext := Function.update s.pnext pindexNew none
    nMint := Function.update s.nMint pindexNew 0
    nMoneySupply := Function.update s.nMoneySupply pindexNew 0
    txdb := (s.txnBegin.txdb.writeBlockIndex (.fresh pindexNew)).commit }

/-- The states reached from an empty database by `AddToBlockIndex` and `SetBestChain`, failed
calls included, of which no successful `SetBestChain` leaves a block behind. The callers of
`AddToBlockIndex` give a proof hash only for proof-of-stake blocks. -/
inductive Kept (env : IndexEnv) : FullNode → Prop
  | fresh {n : FullNode} (h : FreshNode n) : Kept env n
  | added {n : FullNode} {host : Host} {block : CBlock} {spot : DiskSpot} {hashProofOfStake : uint256}
      (hn : Kept env n) (hproof : block.isProofOfStake = false → hashProofOfStake = 0)
      (hcommits : RecordCommits env host block spot hashProofOfStake n)
      (hconnects : ∀ pindexNew,
        newBlockIndex env n.mapBlockIndex block spot hashProofOfStake = .ok pindexNew →
        ConnectsIntended env.toEnv host block pindexNew (n.toState.recorded pindexNew)) :
      Kept env (leaves (addToBlockIndex env host block spot hashProofOfStake) n)
  | moved {n : FullNode} {host : Host} {block : CBlock} {p : CBlockIndex} (hn : Kept env n)
      (hp : n.mapBlockIndex.find p.getBlockHash = some p)
      (hblock : block.toCBlockHeader = p.getBlockHeader)
      (hconnects : ConnectsIntended env.toEnv host block p n.toState) :
      Kept env (leaves (onState (setBestChain env.toEnv host block p)) n)
  | beside {n t : FullNode} (hn : Kept env n) (h : Beside n t) : Kept env t

/-- `AcceptBlock` is such a caller. -/
theorem Kept.accepted {env : IndexEnv} {mode : CPMode} {host : AcceptHost} {n : FullNode}
    {block : CBlock} {spot : DiskSpot} {hashProofOfStake : uint256} (hn : Kept env n)
    (hchecks : acceptChecks env.toEnv mode host n block = .ok hashProofOfStake)
    (hcommits : RecordCommits env host.toHost block spot hashProofOfStake n)
    (hconnects : ∀ pindexNew,
      newBlockIndex env n.mapBlockIndex block spot hashProofOfStake = .ok pindexNew →
      ConnectsIntended env.toEnv host.toHost block pindexNew (n.toState.recorded pindexNew)) :
    Kept env (leaves (addToBlockIndex env host.toHost block spot hashProofOfStake) n) :=
  hn.added (acceptChecks_proof hchecks) hcommits hconnects

section Tree

variable {env : IndexEnv} {m : BlockMap}

def BlockMap.tree (m : BlockMap) (hhash : HeaderHash env.toEnv)
    (hm : ∀ {h p}, m.find h = some p → Entered env p) {p : CBlockIndex} {block : CBlock}
    (hblock : block.toCBlockHeader = p.getBlockHeader) : BlockTree env.toEnv where
  mem q := m.find q.getBlockHash = some q
  block q := if q = p then block else { toCBlockHeader := q.getBlockHeader, vtx := [] }
  parent_mem h := m.parent h
  hash_inj {a b} ha hb hab := by
    rw [hab, hb] at ha
    exact (Option.some.inj ha).symm
  hash_ne_zero ha := (hm ha).ne_zero hhash
  genesis_hash {a} ha := by
    have hentered := hm ha
    cases a with
    | genesis f => exact ⟨fun _ => ⟨f, rfl⟩, fun _ => hentered.first rfl⟩
    | child f q =>
      constructor
      · intro hg
        have hprev := hhash.first _ (hentered.hash.trans hg)
        exact absurd hprev ((hm (m.parent ha)).ne_zero hhash)
      · rintro ⟨g, hg⟩
        cases hg
  block_hash {a} ha := by
    split
    · rename_i he
      subst he
      rw [CBlock.getHash, hblock]
      exact (hm ha).hash
    · exact (hm ha).hash
  block_prev {a} ha := by
    split
    · rename_i he
      subst he
      rw [hblock]
      rfl
    · rfl

end Tree

structure BestAt (m : BlockMap) (s : State) (p : CBlockIndex) : Prop extends AtChain s p where
  pindexBest : s.pindexBest = some p
  found : m.find p.getBlockHash = some p
  hashBestChain : s.hashBestChain = p.getBlockHash
  pindexGenesisBlock : s.pindexGenesisBlock ≠ none
  nBestHeight : s.nBestHeight = p.nHeight
  nBestChainTrust : s.nBestChainTrust = p.nChainTrust

structure NoBest (s : State) : Prop extends Unstarted s where
  disk : s.txdb.committed .hashBestChain = none
  nBestHeight : s.nBestHeight = -1
  nBestChainTrust : s.nBestChainTrust = 0

/-- The chain state goes with its index and with the disk. -/
structure InStep (m : BlockMap) (s : State) : Prop where
  best : NoBest s ∨ ∃ p, BestAt m s p
  filed : Filed m s

theorem InStep.congr {m : BlockMap} {s t : State} (h : InStep m s) (hpnext : t.pnext = s.pnext)
    (hgen : t.pindexGenesisBlock = s.pindexGenesisBlock) (hbest : t.pindexBest = s.pindexBest)
    (hhash : t.hashBestChain = s.hashBestChain) (hheight : t.nBestHeight = s.nBestHeight)
    (htrust : t.nBestChainTrust = s.nBestChainTrust)
    (hdisk : t.txdb.committed .hashBestChain = s.txdb.committed .hashBestChain)
    (hrecords : ∀ h, t.txdb.committed (.blockindex h) = s.txdb.committed (.blockindex h)) :
    InStep m t := by
  constructor
  · rcases h.best with hno | ⟨p, hp⟩
    · exact .inl ⟨hno.toUnstarted.congr hpnext hgen hbest hhash, hdisk.trans hno.disk,
        hheight.trans hno.nBestHeight, htrust.trans hno.nBestChainTrust⟩
    · refine .inr ⟨p, ⟨?_, hdisk.trans hp.disk⟩, hbest.trans hp.pindexBest, hp.found,
        hhash.trans hp.hashBestChain, by rw [hgen]; exact hp.pindexGenesisBlock,
        hheight.trans hp.nBestHeight, htrust.trans hp.nBestChainTrust⟩
      rw [hpnext]
      exact hp.linked
  · have hlinks : linksOf t.txdb.committed = linksOf s.txdb.committed := by
      funext h
      unfold linksOf
      rw [hrecords h]
    rw [Filed, hlinks, hpnext]
    exact h.filed

section Steps

variable {env : IndexEnv} {host : Host}

/-- Wherever `SetBestChain` stops, the chain goes with the disk if it connected all it
intended to. -/
theorem setBestChain_inStep (hhash : HeaderHash env.toEnv) {m : BlockMap}
    (hm : ∀ {h p}, m.find h = some p → Entered env p) {s : State} (hs : InStep m s)
    {p : CBlockIndex} {block : CBlock} (hp : m.find p.getBlockHash = some p)
    (hblock : block.toCBlockHeader = p.getBlockHeader)
    (hconnects : ConnectsIntended env.toEnv host block p s) :
    InStep m (leaves (setBestChain env.toEnv host block p) s) := by
  cases hrun : setBestChain env.toEnv host block p s with
  | error e t =>
    rw [leaves_error hrun]
    have hu := setBestChain_error_untouched hrun
    exact hs.congr hu.pnext hu.pindexGenesisBlock hu.pindexBest hu.hashBestChain hu.nBestHeight
      hu.nBestChainTrust (hu.committed _ (by simp)) fun h => hu.committed _ (by simp)
  | ok u t =>
    rw [leaves_ok hrun]
    have hpostponed := hconnects (by simp [fails, hrun])
    let T := m.tree hhash hm hblock
    have hT : T.block p = block := if_pos rfl
    have hbefore : Unstarted s ∨ Settled T s := by
      rcases hs.best with hno | ⟨b, hb⟩
      · exact .inl hno.toUnstarted
      · exact .inr ⟨b, hb.pindexBest, hb.found, hb.hashBestChain, hb.pindexGenesisBlock, hb.toAtChain⟩
    rw [← hT] at hrun hpostponed
    refine ⟨.inr ⟨p, ?_⟩, setBestChain_filed (T := T) (fun q hq => hq) hp hbefore hs.filed hpostponed hrun⟩
    obtain ⟨q, hq, hmem, hqhash, hgen, hat⟩ := (setBestChain_settles hp hbefore hrun).1 hpostponed
    obtain ⟨r, _, ht⟩ := setBestChain_ok hrun
    subst ht
    obtain rfl : p = q := Option.some.inj hq
    exact ⟨hat, hq, hp, hqhash, hgen, rfl, rfl⟩

theorem BlockMap.insert_find {m : BlockMap} {pindexNew : CBlockIndex}
    (hnew : m.find pindexNew.getBlockHash = none)
    (hprev : ∀ p, pindexNew.pprev = some p → m.find p.getBlockHash = some p) (h : uint256) :
    (m.insert pindexNew hnew hprev).find h =
      if h = pindexNew.getBlockHash then some pindexNew else m.find h := rfl

/-- Entering a block without a link is writing its first record. -/
theorem BlockMap.insert_links {m : BlockMap} {pindexNew : CBlockIndex}
    (hnew : m.find pindexNew.getBlockHash = none)
    (hprev : ∀ p, pindexNew.pprev = some p → m.find p.getBlockHash = some p)
    {pnext : CBlockIndex → Option CBlockIndex} (hnone : pnext pindexNew = none) :
    (m.insert pindexNew hnew hprev).links pnext =
      Function.update (m.links pnext) pindexNew.getBlockHash (some (pindexNew, 0)) := by
  funext h
  unfold BlockMap.links
  rw [BlockMap.insert_find]
  by_cases hh : h = pindexNew.getBlockHash
  · rw [if_pos hh, hh, Function.update_self, Option.map_some, hnone]
    rfl
  · rw [if_neg hh, Function.update_of_ne hh]

/-- Only blocks of the index have a link. -/
theorem InStep.pnext_none {m : BlockMap} {s : State} (hs : InStep m s) {p : CBlockIndex}
    (hp : m.find p.getBlockHash = none) : s.pnext p = none := by
  rcases hs.best with hno | ⟨b, hb⟩
  · rw [hno.pnext]
  · apply hb.linked.off
    intro hmem
    rw [BlockMap.find_ancestor hb.found hmem] at hp
    cases hp

/-- A new block with its first record. -/
theorem recorded_inStep {n : FullNode} (hs : InStep n.mapBlockIndex n.toState)
    {pindexNew : CBlockIndex} (hnew : n.mapBlockIndex.find pindexNew.getBlockHash = none)
    (hprev : ∀ p, pindexNew.pprev = some p → n.mapBlockIndex.find p.getBlockHash = some p) :
    InStep (n.mapBlockIndex.insert pindexNew hnew hprev) (n.toState.recorded pindexNew) := by
  have hnone := hs.pnext_none hnew
  have hpnext : (n.toState.recorded pindexNew).pnext = n.pnext := by
    change Function.update n.pnext pindexNew none = n.pnext
    rw [← hnone, Function.update_eq_self]
  have hdisk : (n.toState.recorded pindexNew).txdb.committed .hashBestChain =
      n.txdb.committed .hashBestChain := by
    change (n.txnBegin.txdb.writeBlockIndex (.fresh pindexNew)).commit.committed .hashBestChain = _
    rw [Db.committed_commit]
    unfold CTxDB.writeBlockIndex
    rw [Db.view_write, Function.update_of_ne (by simp)]
    rfl
  constructor
  · rcases hs.best with hno | ⟨b, hb⟩
    · exact .inl ⟨hno.toUnstarted.congr hpnext rfl rfl rfl, hdisk.trans hno.disk, hno.nBestHeight,
        hno.nBestChainTrust⟩
    · refine .inr ⟨b, ⟨by rw [hpnext]; exact hb.linked, hdisk.trans hb.disk⟩, hb.pindexBest, ?_,
        hb.hashBestChain, hb.pindexGenesisBlock, hb.nBestHeight, hb.nBestChainTrust⟩
      rw [BlockMap.insert_find, if_neg]
      · exact hb.found
      · intro he
        rw [← he, hb.found] at hnew
        cases hnew
  · have hfiled : linksOf n.txdb.committed = n.mapBlockIndex.links n.pnext := hs.filed
    rw [Filed, hpnext, BlockMap.insert_links hnew hprev hnone, ← hfiled]
    exact linksOf_write n.txnBegin.txdb (.fresh pindexNew)

theorem newBlockIndex_checkpoint {m : BlockMap} {block : CBlock} {spot : DiskSpot}
    {hashProofOfStake : uint256} {pindexNew : CBlockIndex}
    (h : newBlockIndex env m block spot hashProofOfStake = .ok pindexNew) :
    checkStakeModifierCheckpoints env.toEnv pindexNew.nHeight
      pindexNew.fields.nStakeModifierChecksum = true := by
  unfold newBlockIndex at h
  simp only at h
  split at h
  · cases h
  · simp only [check_bind, pure_ok] at h
    obtain ⟨_, hcheckpoint, rfl⟩ := h
    exact hcheckpoint

theorem blockFlags_stake (block : CBlock) (fGenerated : Bool) :
    (blockFlags env.toEnv block fGenerated &&& 1 != 0) = block.isProofOfStake := by
  unfold blockFlags
  generalize block.getStakeEntropyBit env.toEnv = bit
  cases block.isProofOfStake <;> cases fGenerated <;> by_cases hbit : bit = 0 <;> simp only [hbit] <;> decide

/-- The header of the new entry is that of the block. -/
theorem newBlockIndex_header (hhash : HeaderHash env.toEnv) {m : BlockMap} {block : CBlock}
    {spot : DiskSpot} {hashProofOfStake : uint256} {pindexNew : CBlockIndex}
    (h : newBlockIndex env m block spot hashProofOfStake = .ok pindexNew) :
    block.toCBlockHeader = pindexNew.getBlockHeader := by
  have hprev : block.hashPrevBlock = (pindexNew.pprev.map getBlockHash).getD 0 := by
    rw [newBlockIndex_pprev h]
    cases hfind : m.find block.hashPrevBlock with
    | some q => exact (m.hash_eq hfind).symm
    | none =>
      rcases (newBlockIndex_ok h).1 with hsome | hfirst
      · rw [hfind] at hsome
        cases hsome
      · exact hhash.first _ hfirst
  unfold CBlockIndex.getBlockHeader
  rw [← hprev]
  obtain ⟨_, nStakeModifier, fGenerated, rfl⟩ := newBlockIndex_ok h
  rw [CBlockIndex.onTop_fields]
  rfl

theorem newBlockIndex_entered (hhash : HeaderHash env.toEnv) {m : BlockMap} {block : CBlock}
    {spot : DiskSpot} {hashProofOfStake : uint256} {pindexNew : CBlockIndex}
    (hproof : block.isProofOfStake = false → hashProofOfStake = 0)
    (h : newBlockIndex env m block spot hashProofOfStake = .ok pindexNew) :
    Entered env pindexNew := by
  refine ⟨?_, ?_, ?_, ?_, newBlockIndex_checkpoint h, ?_⟩
  · rw [← newBlockIndex_header hhash h, newBlockIndex_hash h]
    rfl
  · intro hnone
    rw [newBlockIndex_pprev h] at hnone
    rw [newBlockIndex_hash h]
    rcases (newBlockIndex_ok h).1 with hsome | hfirst
    · rw [hnone] at hsome
      cases hsome
    · exact hfirst
  · rw [newBlockIndex_pprev h]
    obtain ⟨_, nStakeModifier, fGenerated, rfl⟩ := newBlockIndex_ok h
    rw [CBlockIndex.nChainTrust, CBlockIndex.onTop_fields]
    rfl
  · rw [newBlockIndex_pprev h]
    obtain ⟨_, nStakeModifier, fGenerated, rfl⟩ := newBlockIndex_ok h
    rw [CBlockIndex.onTop_fields]
    rfl
  · obtain ⟨_, nStakeModifier, fGenerated, rfl⟩ := newBlockIndex_ok h
    rw [CBlockIndex.isProofOfStake, CBlockIndex.onTop_fields]
    intro hstake
    have hwork : block.isProofOfStake = false := (blockFlags_stake block fGenerated).symm.trans hstake
    have hpair : block.getProofOfStake = (⟨0, 0xffffffff⟩, 0) := by
      unfold CBlock.getProofOfStake
      rw [hwork]
    exact ⟨congrArg Prod.fst hpair, congrArg Prod.snd hpair, hproof hwork⟩

section Record

variable {n : FullNode} {block : CBlock} {pindexNew : CBlockIndex}
  (hnew : n.mapBlockIndex.find pindexNew.getBlockHash = none)
  (hprev : ∀ p, pindexNew.pprev = some p → n.mapBlockIndex.find p.getBlockHash = some p)

/-- The database when the record of the new block is to be committed. -/
theorem enter_record :
    let s := (n.enter pindexNew hnew hprev).toState.txnBegin
    s.txdb.writeBlockIndex (s.diskBlockIndex pindexNew) =
      n.txnBegin.txdb.writeBlockIndex (.fresh pindexNew) := by
  simp [State.diskBlockIndex, State.txnBegin, FullNode.enter, CDiskBlockIndex.fresh]

/-- With the record committed, `SetBestChain` is called if the block is better. -/
theorem recordBlockIndex_leaves
    (hcommit : host.commitFails (n.txnBegin.txdb.writeBlockIndex (.fresh pindexNew)) = false) :
    leaves (recordBlockIndex env.toEnv host block pindexNew) (n.enter pindexNew hnew hprev).toState =
      if n.nBestChainTrust < pindexNew.nChainTrust then
        leaves (setBestChain env.toEnv host block pindexNew) (n.toState.recorded pindexNew)
      else n.toState.recorded pindexNew := by
  let s := (n.enter pindexNew hnew hprev).toState.txnBegin
  have hrun : txnCommit host { s with
      txdb := s.txdb.writeBlockIndex (s.diskBlockIndex pindexNew) } =
        .ok () (n.toState.recorded pindexNew) := by
    rw [enter_record hnew hprev, txnCommit, if_neg (by rw [Bool.not_eq_true]; exact hcommit)]
    rfl
  have hrest := leaves_bind_ok (fun _ => do
    let s ← get
    if s.nBestChainTrust < pindexNew.nChainTrust then
      setBestChain env.toEnv host block pindexNew) hrun
  refine hrest.trans ?_
  rw [leaves_bind_ok (x := get) _ rfl]
  have hbest : (n.toState.recorded pindexNew).nBestChainTrust = n.nBestChainTrust := rfl
  rw [hbest]
  split <;> rfl

/-- Without it nothing is on disk. -/
theorem recordBlockIndex_unrecorded
    (hfails : host.commitFails (n.txnBegin.txdb.writeBlockIndex (.fresh pindexNew)) = true) :
    (leaves (recordBlockIndex env.toEnv host block pindexNew)
      (n.enter pindexNew hnew hprev).toState).txdb.committed = n.txdb.committed := by
  let s := (n.enter pindexNew hnew hprev).toState.txnBegin
  have hrun : txnCommit host { s with
      txdb := s.txdb.writeBlockIndex (s.diskBlockIndex pindexNew) } =
        .error { msg := "TxnCommit failed" } { s with txdb := n.txdb.abort } := by
    rw [enter_record hnew hprev, txnCommit, if_pos hfails]
    rfl
  have hrest := leaves_bind_error (fun _ => do
    let s ← get
    if s.nBestChainTrust < pindexNew.nChainTrust then
      setBestChain env.toEnv host block pindexNew) hrun
  have hleaves : leaves (recordBlockIndex env.toEnv host block pindexNew)
      (n.enter pindexNew hnew hprev).toState = { s with txdb := n.txdb.abort } := hrest
  rw [hleaves]
  rfl

end Record

end Steps

/-- The index, the stakes seen and the chain go together, and with the disk. -/
structure Persisted (env : IndexEnv) (n : FullNode) : Prop where
  entered : ∀ {h p}, n.mapBlockIndex.find h = some p → Entered env p
  inStep : InStep n.mapBlockIndex n.toState
  stakes : ∀ x, x ∈ n.setStakeSeen ↔ ∃ h p, n.mapBlockIndex.find h = some p ∧
    p.isProofOfStake = true ∧ x = (p.fields.prevoutStake, p.fields.nStakeTime)

section Runs

variable {env : IndexEnv}

theorem FreshNode.persisted {n : FullNode} (h : FreshNode n) : Persisted env n where
  entered hp := by
    rw [h.mapBlockIndex] at hp
    cases hp
  inStep := by
    refine ⟨.inl ⟨h.unstarted, h.best, h.nBestHeight, h.nBestChainTrust⟩, ?_⟩
    funext hash
    simp [linksOf, BlockMap.links, h.records, h.mapBlockIndex]
  stakes := by simp [h.setStakeSeen, h.mapBlockIndex]

theorem enter_stakes {n : FullNode} (hn : Persisted env n) {pindexNew : CBlockIndex}
    (hnew : n.mapBlockIndex.find pindexNew.getBlockHash = none)
    (hprev : ∀ p, pindexNew.pprev = some p → n.mapBlockIndex.find p.getBlockHash = some p)
    (x : Stake) :
    x ∈ (n.enter pindexNew hnew hprev).setStakeSeen ↔
      ∃ h p, (n.enter pindexNew hnew hprev).mapBlockIndex.find h = some p ∧
        p.isProofOfStake = true ∧ x = (p.fields.prevoutStake, p.fields.nStakeTime) := by
  have hold : ∀ h p, n.mapBlockIndex.find h = some p →
      (n.enter pindexNew hnew hprev).mapBlockIndex.find h = some p := by
    intro h p hp
    refine (if_neg ?_).trans hp
    rintro rfl
    rw [hnew] at hp
    cases hp
  have hmem : x ∈ (n.enter pindexNew hnew hprev).setStakeSeen ↔
      (pindexNew.isProofOfStake = true ∧
        x = (pindexNew.fields.prevoutStake, pindexNew.fields.nStakeTime)) ∨ x ∈ n.setStakeSeen := by
    change x ∈ (if pindexNew.isProofOfStake then _ else _) ↔ _
    split <;> simp_all
  rw [hmem, hn.stakes x]
  constructor
  · rintro (⟨hstake, hx⟩ | ⟨h, p, hp, hrest⟩)
    · exact ⟨pindexNew.getBlockHash, pindexNew, if_pos rfl, hstake, hx⟩
    · exact ⟨h, p, hold h p hp, hrest⟩
  · rintro ⟨h, p, hp, hrest⟩
    by_cases hh : h = pindexNew.getBlockHash
    · have hp' : some pindexNew = some p := (if_pos hh).symm.trans hp
      cases hp'
      exact .inl hrest
    · exact .inr ⟨h, p, (if_neg hh).symm.trans hp, hrest⟩

theorem addToBlockIndex_persisted (hhash : HeaderHash env.toEnv) {n : FullNode} {host : Host}
    {block : CBlock} {spot : DiskSpot} {hashProofOfStake : uint256} (hn : Persisted env n)
    (hproof : block.isProofOfStake = false → hashProofOfStake = 0)
    (hcommits : RecordCommits env host block spot hashProofOfStake n)
    (hconnects : ∀ pindexNew,
      newBlockIndex env n.mapBlockIndex block spot hashProofOfStake = .ok pindexNew →
      ConnectsIntended env.toEnv host block pindexNew (n.toState.recorded pindexNew)) :
    Persisted env (leaves (addToBlockIndex env host block spot hashProofOfStake) n) := by
  rcases addToBlockIndex_run env host n block spot hashProofOfStake with
    ⟨_, e, he⟩ | ⟨pindexNew, hnew, hprev, hok, hrun⟩
  · rw [leaves_error he]
    exact hn
  · have hentered : ∀ {h p}, (n.enter pindexNew hnew hprev).mapBlockIndex.find h = some p →
        Entered env p := by
      intro h p hp
      by_cases hh : h = pindexNew.getBlockHash
      · have hp' : some pindexNew = some p := (if_pos hh).symm.trans hp
        cases hp'
        exact newBlockIndex_entered hhash hproof hok
      · exact hn.entered ((if_neg hh).symm.trans hp)
    have hcommit := hcommits pindexNew (newBlockIndex_hash hok ▸ hnew) hok
    have hrecorded := recorded_inStep hn.inStep hnew hprev
    have hleaves : leaves (addToBlockIndex env host block spot hashProofOfStake) n =
        { n.enter pindexNew hnew hprev with
          toState := leaves (recordBlockIndex env.toEnv host block pindexNew)
            (n.enter pindexNew hnew hprev).toState } := by
      rw [leaves, hrun, ← leaves, onState_leaves]
    rw [hleaves]
    refine ⟨hentered, ?_, enter_stakes hn hnew hprev⟩
    change InStep (n.mapBlockIndex.insert pindexNew hnew hprev) (leaves (recordBlockIndex env.toEnv
      host block pindexNew) (n.enter pindexNew hnew hprev).toState)
    rw [recordBlockIndex_leaves hnew hprev hcommit]
    split
    · exact setBestChain_inStep hhash hentered hrecorded (if_pos rfl)
        (newBlockIndex_header hhash hok) (hconnects pindexNew hok)
    · exact hrecorded

/-- What a run preserves. -/
theorem Kept.persisted (hhash : HeaderHash env.toEnv) {n : FullNode} (h : Kept env n) :
    Persisted env n := by
  induction h with
  | fresh h => exact h.persisted
  | added _ hproof hcommits hconnects ih =>
    exact addToBlockIndex_persisted hhash ih hproof hcommits hconnects
  | moved _ hp hblock hconnects ih =>
    rw [onState_leaves]
    exact ⟨ih.entered, setBestChain_inStep hhash ih.entered ih.inStep hp hblock hconnects, ih.stakes⟩
  | beside _ h ih =>
    refine ⟨?_, ?_, ?_⟩
    · rw [h.mapBlockIndex]
      exact ih.entered
    · rw [h.mapBlockIndex]
      exact ih.inStep.congr h.pnext h.pindexGenesisBlock h.pindexBest h.hashBestChain h.nBestHeight
        h.nBestChainTrust h.best h.records
    · rw [h.mapBlockIndex, h.setStakeSeen]
      exact ih.stakes

theorem Persisted.saved {n : FullNode} (h : Persisted env n) :
    Saved env n.txdb.committed n.mapBlockIndex n.pnext where
  entered := h.entered
  links := h.inStep.filed
  next {p q} hq := by
    rcases h.inStep.best with hno | ⟨b, hb⟩
    · rw [hno.pnext] at hq
      cases hq
    · exact BlockMap.find_ancestor hb.found ((hb.linked p q).mp hq).1

theorem addToBlockIndex_index (n : FullNode) (host : Host) (block : CBlock) (spot : DiskSpot)
    (hashProofOfStake : uint256) :
    (leaves (addToBlockIndex env host block spot hashProofOfStake) n).mapBlockIndex = n.mapBlockIndex ∨
    ∃ pindexNew hnew hprev,
      (leaves (addToBlockIndex env host block spot hashProofOfStake) n).mapBlockIndex =
        n.mapBlockIndex.insert pindexNew hnew hprev := by
  rcases addToBlockIndex_run env host n block spot hashProofOfStake with
    ⟨_, e, he⟩ | ⟨pindexNew, hnew, hprev, hok, hrun⟩
  · rw [leaves_error he]
    exact .inl rfl
  · refine .inr ⟨pindexNew, hnew, hprev, ?_⟩
    rw [leaves, hrun, ← leaves, onState_leaves]
    rfl

theorem Kept.finite {n : FullNode} (h : Kept env n) :
    ∃ keys : List uint256, keys.Nodup ∧ ∀ h, h ∈ keys ↔ (n.mapBlockIndex.find h).isSome := by
  induction h with
  | fresh h => exact ⟨[], List.nodup_nil, by simp [h.mapBlockIndex]⟩
  | @added n host block spot hashProofOfStake _ _ _ _ ih =>
    obtain ⟨keys, hnodup, hkeys⟩ := ih
    rcases addToBlockIndex_index n host block spot hashProofOfStake with hsame | ⟨p, hnew, hprev, hins⟩
    · rw [hsame]
      exact ⟨keys, hnodup, hkeys⟩
    · rw [hins]
      refine ⟨p.getBlockHash :: keys, List.nodup_cons.mpr ⟨?_, hnodup⟩, ?_⟩
      · rw [hkeys, hnew]
        simp
      · intro h
        rw [List.mem_cons, hkeys, BlockMap.insert_find]
        split <;> simp_all
  | moved _ _ _ _ ih =>
    rw [onState_leaves]
    exact ih
  | beside _ h ih =>
    rw [h.mapBlockIndex]
    exact ih

/-- So there is an iterator over its records. -/
theorem Kept.cursor (hhash : HeaderHash env.toEnv) {n : FullNode} (h : Kept env n) :
    Nonempty (Cursor n.txdb.committed) := by
  obtain ⟨keys, hnodup, hkeys⟩ := h.finite
  have hd := (h.persisted hhash).saved
  refine ⟨keys, hnodup, fun hash => ?_⟩
  rw [hkeys]
  constructor
  · intro hsome
    obtain ⟨p, hp⟩ := Option.isSome_iff_exists.mp hsome
    exact hd.recorded hp
  · intro hsome
    obtain ⟨d, hrecord⟩ := Option.isSome_iff_exists.mp hsome
    rw [(hd.record hrecord).1]
    rfl

theorem loadBestChain_map (disk : Store DbVal) (g : Loaded) :
    (leaves (loadBestChain disk) g).mapBlockIndex = g.mapBlockIndex ∧
      (leaves (loadBestChain disk) g).setStakeSeen = g.setStakeSeen := by
  unfold loadBestChain leaves
  cases disk .hashBestChain with
  | none => by_cases hg : g.pindexGenesisBlock = none <;> simp [hg]
  | some hash =>
    cases hlookup : g.mapBlockIndex.lookup hash with
    | none => simp [hlookup]
    | some e => cases disk .hashSyncCheckpoint <;> simp [hlookup]

/-- With a best block on disk that is in the loaded index, the pointers lead to it. -/
theorem loadBestChain_at {disk : Store DbVal} {g : Loaded} {hash : uint256} {e : LoadedIndex}
    (hdisk : disk .hashBestChain = some hash) (hlookup : g.mapBlockIndex.lookup hash = some e) :
    (leaves (loadBestChain disk) g).pindexBest = some hash ∧
    (leaves (loadBestChain disk) g).nBestHeight = e.nHeight ∧
    (leaves (loadBestChain disk) g).nBestChainTrust = e.nChainTrust ∧
    ((disk .hashSyncCheckpoint).isSome → fails (loadBestChain disk) g = false) := by
  unfold loadBestChain leaves fails
  rw [hdisk]
  simp only [hlookup]
  cases disk .hashSyncCheckpoint <;> simp

theorem loadBestChain_none {disk : Store DbVal} (hdisk : disk .hashBestChain = none) (g : Loaded) :
    leaves (loadBestChain disk) g = g := by
  unfold loadBestChain leaves
  rw [hdisk]
  by_cases hgen : g.pindexGenesisBlock = none <;> simp [hgen]

/-- The pointers to the best chain are those of the node. -/
theorem loadBestChain_reproduces {n : FullNode} (hn : Persisted env n) {g : Loaded}
    (hg : Restored n.mapBlockIndex n.pnext g) :
    Reproduces n (leaves (loadBestChain n.txdb.committed) g) ∧
      (n.pindexBest.isSome → (n.txdb.committed .hashSyncCheckpoint).isSome →
        fails (loadBestChain n.txdb.committed) g = false) := by
  obtain ⟨hmap, hstakes⟩ := loadBestChain_map n.txdb.committed g
  have hentries : ∀ h, (leaves (loadBestChain n.txdb.committed) g).entryAt h =
      (n.mapBlockIndex.find h).map (CBlockIndex.entry n.pnext) := by
    intro h
    rw [Loaded.entryAt, hmap]
    exact hg.entries h
  have hseen : (leaves (loadBestChain n.txdb.committed) g).setStakeSeen = n.setStakeSeen := by
    ext x
    rw [hstakes, hg.stakes, hn.stakes]
  rcases hn.inStep.best with hno | ⟨p, hp⟩
  · have hleaves := loadBestChain_none hno.disk g
    constructor
    · refine ⟨hentries, hseen, ?_, ?_, ?_⟩ <;> rw [hleaves]
      · rw [hg.pindexBest, hno.pindexBest]
        rfl
      · rw [hg.nBestHeight, hno.nBestHeight]
      · rw [hg.nBestChainTrust, hno.nBestChainTrust]
    · rw [hno.pindexBest]
      simp
  · have hbest := hg.entries p.getBlockHash
    rw [hp.found, Option.map_some] at hbest
    obtain ⟨e, hlookup, hentry⟩ := Option.map_eq_some_iff.mp hbest
    obtain ⟨hpindex, hheight, htrust, hok⟩ := loadBestChain_at hp.disk hlookup
    refine ⟨⟨hentries, hseen, ?_, ?_, ?_⟩, fun _ => hok⟩
    · rw [hpindex, hp.pindexBest]
      rfl
    · rw [hheight, hentry, hp.nBestHeight]
      rfl
    · rw [htrust, hentry, hp.nBestChainTrust]
      rfl

/-- A block whose record is not committed is in the index all the same. -/
theorem addToBlockIndex_unrecorded {n : FullNode} {host : Host} {block : CBlock} {spot : DiskSpot}
    {hashProofOfStake : uint256} (h : ¬ RecordCommits env host block spot hashProofOfStake n) :
    n.mapBlockIndex.find (block.getHash env.toEnv) = none ∧
    ((leaves (addToBlockIndex env host block spot hashProofOfStake) n).mapBlockIndex.find
      (block.getHash env.toEnv)).isSome ∧
    (leaves (addToBlockIndex env host block spot hashProofOfStake) n).txdb.committed =
      n.txdb.committed := by
  unfold RecordCommits at h
  push Not at h
  obtain ⟨pindexNew, hfree, hok, hfails⟩ := h
  rcases addToBlockIndex_run env host n block spot hashProofOfStake with
    ⟨hnot, _⟩ | ⟨p, hnew, hprev, hok', hrun⟩
  · exact absurd ⟨hfree, pindexNew, hok⟩ hnot
  · obtain rfl : pindexNew = p := Except.ok.inj (hok.symm.trans hok')
    rw [leaves, hrun, ← leaves, onState_leaves]
    refine ⟨hfree, ?_, recordBlockIndex_unrecorded hnew hprev (by simpa using hfails)⟩
    change ((n.mapBlockIndex.insert pindexNew hnew hprev).find (block.getHash env.toEnv)).isSome
    rw [BlockMap.insert_find, if_pos (newBlockIndex_hash hok).symm]
    rfl

theorem unrecorded_not_reproduced (hhash : HeaderHash env.toEnv) {n t : FullNode}
    (hn : Kept env n) {hash : uint256} (hfree : n.mapBlockIndex.find hash = none)
    (hthere : (t.mapBlockIndex.find hash).isSome)
    (hdisk : t.txdb.committed = n.txdb.committed) (cursor : Cursor t.txdb.committed) (host : LoadHost) :
    ¬ Reproduces t (leaves (loadBlockIndex env host t.txdb.committed cursor) {}) := by
  have hd := (hn.persisted hhash).saved
  rw [← hdisk] at hd
  obtain ⟨g, hload, hg⟩ := loadBlockIndex_restores hhash hd cursor host
  intro hsame
  have hentry := hsame.entries hash
  rw [leaves, hload, ← leaves, Loaded.entryAt, (loadBestChain_map _ g).1, ← Loaded.entryAt,
    hg.entries hash, hfree] at hentry
  obtain ⟨p, hp⟩ := Option.isSome_iff_exists.mp hthere
  rw [hp] at hentry
  cases hentry

end Runs

namespace Sample

/-! The first block and one on top of it. Times serve as hashes. -/

def diskEnv : IndexEnv :=
  { env [] with
    hash9 := fun header =>
      if header.nTime ≠ 0 then header.nTime.toNat
      else if header.hashPrevBlock = 0 then hashGenesisBlock else 1
    hashChecksum := fun _ _ _ _ => 0x0e00670b * 2 ^ 224 }

theorem diskEnv_hash : HeaderHash diskEnv.toEnv where
  ne_zero header := by
    change (if header.nTime ≠ 0 then header.nTime.toNat
      else if header.hashPrevBlock = 0 then hashGenesisBlock else 1) ≠ 0
    split
    · rename_i htime
      exact fun h0 => htime (UInt32.toNat_inj.mp h0)
    · split <;> decide
  first header h := by
    change (if header.nTime ≠ 0 then header.nTime.toNat
      else if header.hashPrevBlock = 0 then hashGenesisBlock else 1) = hashGenesisBlock at h
    split at h
    · have hlt := header.nTime.toNat_lt
      rw [h] at hlt
      exact absurd hlt (by decide)
    · split at h
      · assumption
      · exact absurd h (by decide)

def blankNode : FullNode :=
  { blank with
    nBestHeight := -1
    nBestChainTrust := 0
    mapBlockIndex := ⟨fun _ => none, nofun, nofun⟩
    setStakeSeen := ∅
    hashSyncCheckpoint := 0
    hashPendingCheckpoint := 0
    hashInvalidCheckpoint := 0 }

theorem blankNode_fresh : FreshNode blankNode :=
  ⟨fun _ => rfl, rfl, ⟨rfl, rfl, rfl, rfl⟩, rfl, rfl, fun _ => rfl, rfl⟩

def firstNode : FullNode :=
  leaves (addToBlockIndex diskEnv host genesisBlock ⟨1, 8, firstFile_ne, by decide⟩ 0) blankNode

def secondNode : FullNode :=
  leaves (addToBlockIndex diskEnv host mainBlock mainSpot 0) firstNode

def fullDisk : Host := { host with commitFails := fun _ => true }

def lostNode : FullNode :=
  leaves (addToBlockIndex diskEnv fullDisk mainBlock mainSpot 0) firstNode

theorem firstNode_kept : Kept diskEnv firstNode := by
  refine .added (.fresh blankNode_fresh) (fun _ => rfl) (fun _ _ _ => rfl) ?_
  intro pindexNew _ _
  have hfirst : genesisBlock.getHash diskEnv.toEnv = hashGenesisBlock := by decide
  exact if_pos ⟨rfl, hfirst⟩

theorem secondNode_kept : Kept diskEnv secondNode := by
  refine .added firstNode_kept (fun _ => rfl) (fun _ _ _ => rfl) ?_
  intro pindexNew _ _
  have hnot : ¬ ((firstNode.toState.recorded pindexNew).pindexGenesisBlock = none ∧
      mainBlock.getHash diskEnv.toEnv = hashGenesisBlock) := by
    rintro ⟨_, hhash⟩
    exact absurd hhash (by decide)
  have hbest : mainBlock.hashPrevBlock = (firstNode.toState.recorded pindexNew).hashBestChain := by
    change mainBlock.hashPrevBlock = firstNode.hashBestChain
    decide
  rw [postponedConnect, if_neg hnot, if_pos hbest]

end Sample

end Triangles
