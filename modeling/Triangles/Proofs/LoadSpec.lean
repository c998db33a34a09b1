import Triangles.Lib.Assoc
import Triangles.Lib.Components
import Triangles.Model.Index
import Triangles.Model.LoadBlockIndex
import Triangles.Proofs.Coherence
import Triangles.Proofs.Selection

/-! The records of the block index follow the links in memory. -/

namespace Triangles

open Outcome Batch CBlockIndex

def linksOf (disk : Store DbVal) (hash : uint256) : Option (CBlockIndex × uint256) :=
  (disk (.blockindex hash)).map fun record => (record.pindex, record.hashNext)

def hashOrZero (pindex : Option CBlockIndex) : uint256 := (pindex.map CBlockIndex.getBlockHash).getD 0

def BlockMap.links (m : BlockMap) (pnext : CBlockIndex → Option CBlockIndex) (hash : uint256) :
    Option (CBlockIndex × uint256) :=
  (m.find hash).map fun p => (p, hashOrZero (pnext p))

theorem BlockMap.links_update {m : BlockMap} {p : CBlockIndex}
    (hp : m.find p.getBlockHash = some p) (pnext : CBlockIndex → Option CBlockIndex)
    (next : Option CBlockIndex) :
    Function.update (m.links pnext) p.getBlockHash (some (p, hashOrZero next)) =
      m.links (Function.update pnext p next) := by
  funext hash
  unfold BlockMap.links
  by_cases hh : hash = p.getBlockHash
  · rw [hh, Function.update_self, hp, Option.map_some, Function.update_self]
  · rw [Function.update_of_ne hh]
    apply Option.map_congr
    intro q hq
    have hne : q ≠ p := by
      rintro rfl
      exact hh (m.hash_eq hq).symm
    rw [Function.update_of_ne hne]

section Writes

theorem linksOf_other (disk : Store DbVal) (k : DbKey) (v : Option (DbVal k))
    (hk : ∀ h, k ≠ .blockindex h) : linksOf (Function.update disk k v) = linksOf disk := by
  funext h
  unfold linksOf
  rw [Function.update_of_ne (hk h).symm]

theorem linksOf_write (db : CTxDB) (record : CDiskBlockIndex) :
    linksOf (db.writeBlockIndex record).view = Function.update (linksOf db.view)
      record.pindex.getBlockHash (some (record.pindex, record.hashNext)) := by
  unfold CTxDB.writeBlockIndex
  rw [Db.view_write]
  funext h
  by_cases hh : h = record.pindex.getBlockHash
  · rw [hh, Function.update_self]
    simp [linksOf]
  · rw [Function.update_of_ne hh]
    unfold linksOf
    rw [Function.update_of_ne (fun hc => hh (DbKey.blockindex.inj hc))]

theorem linksOf_updateTxIndex (db : CTxDB) (hash : uint256) (txindex : CTxIndex) :
    linksOf (db.updateTxIndex hash txindex).view = linksOf db.view := by
  unfold CTxDB.updateTxIndex
  rw [Db.view_write]
  exact linksOf_other _ _ _ (by simp)

theorem linksOf_eraseTxIndex (env : Env) (db : CTxDB) (tx : CTransaction) :
    linksOf (CTxDB.eraseTxIndex env db tx).view = linksOf db.view := by
  unfold CTxDB.eraseTxIndex
  rw [Db.view_erase]
  exact linksOf_other _ _ _ (by simp)

theorem linksOf_writeHashBestChain (db : CTxDB) (hash : uint256) :
    linksOf (db.writeHashBestChain hash).view = linksOf db.view := by
  unfold CTxDB.writeHashBestChain
  rw [Db.view_write]
  exact linksOf_other _ _ _ (by simp)

theorem linksOf_writeQueued (queued : QueuedChanges) (db : CTxDB) :
    linksOf (writeQueued db queued).view = linksOf db.view := by
  unfold writeQueued
  induction queued.entries generalizing db with
  | nil => rfl
  | cons e l ih =>
    rw [List.foldl_cons, ih]
    exact linksOf_updateTxIndex db e.1 e.2

/-- Database operations that leave the block index alone. -/
def KeepsLinks (d d' : CTxDB) : Prop := linksOf d'.view = linksOf d.view

theorem KeepsLinks.refl (db : CTxDB) : KeepsLinks db db := rfl

theorem KeepsLinks.trans (a b c : CTxDB) (h : KeepsLinks a b) (h' : KeepsLinks b c) :
    KeepsLinks a c := Eq.trans h' h

theorem disconnectAll_keepsLinks (env : Env) (vtx : List CTransaction) :
    Keeps KeepsLinks (vtx.forM (CTransaction.disconnectInputs env)) :=
  Keeps.forM KeepsLinks.refl KeepsLinks.trans
    (disconnectInputs_keeps KeepsLinks.refl KeepsLinks.trans linksOf_updateTxIndex
      (linksOf_eraseTxIndex env)) vtx

end Writes

section Moves

variable {env : Env} {host : Host} {m : BlockMap}

theorem linksOf_writePrevIndex (f : BlockFields) (p : CBlockIndex) (s : State) (hash : uint256) :
    linksOf (s.writePrevIndex (.child f p) hash).txdb.view =
      Function.update (linksOf s.txdb.view) p.getBlockHash (some (p, hash)) :=
  linksOf_write s.txdb { s.diskBlockIndex p with hashNext := hash }

/-- A disconnected block leaves its parent without successor on disk. -/
theorem disconnectBlock_links {block : CBlock} {f : BlockFields} {p : CBlockIndex} {s t : State}
    (h : disconnectBlock env block (.child f p) s = .ok () t) :
    linksOf t.txdb.view =
      Function.update (linksOf s.txdb.view) p.getBlockHash (some (p, hashOrZero none)) := by
  obtain ⟨_, s₁, h₁, h⟩ := run_bind_ok.mp h
  obtain ⟨_, s₂, h₂, h⟩ := run_bind_ok.mp h
  cases h₂
  cases h
  have hkeeps := disconnectAll_keepsLinks env block.vtx.reverse s.txdb
  unfold onTxDb at h₁
  split at h₁
  · rename_i u db hdb
    cases h₁
    rw [leaves_ok hdb] at hkeeps
    rw [← hkeeps]
    exact linksOf_writePrevIndex f p { s with txdb := db } 0
  · cases h₁

/-- A connected block is written as it is in memory, and its parent with the link to it. -/
theorem connectBlock_links {block : CBlock} {f : BlockFields} {p : CBlockIndex} {s t : State}
    (h : connectBlock env host block (.child f p) false s = .ok () t) :
    linksOf t.txdb.view =
      Function.update
        (Function.update (linksOf s.txdb.view) (child f p).getBlockHash
          (some (child f p, hashOrZero (s.pnext (child f p)))))
        p.getBlockHash (some (p, hashOrZero (some (child f p)))) := by
  unfold connectBlock at h
  split at h
  · cases h
  · rename_i acc hacc
    cases h
    simp only [State.afterConnect, Bool.false_eq_true, ↓reduceIte]
    rw [linksOf_writePrevIndex, linksOf_writeQueued, linksOf_write]
    rfl

/-- The records, pending writes included, are those of the blocks of `m` with the links of the
chain that ends in `a`. -/
def FiledAt (m : BlockMap) (db : CTxDB) (a : CBlockIndex) : Prop :=
  ∃ pnext, LinkedTo pnext a ∧ linksOf db.view = m.links pnext

theorem disconnect_climb_links {a b : CBlockIndex} {l : List CBlockIndex} (hl : Climb a l b)
    (hb : m.find b.getBlockHash = some b) : ∀ {v r : List CTransaction} {s t : State},
      FiledAt m s.txdb b → l.reverse.foldlM (disconnectRound env host) v s = .ok r t →
      FiledAt m t.txdb a := by
  apply disconnect_climb_keeps (P := fun q s => FiledAt m s.txdb q) hl
  intro f q block s t hmem _ hdis hs
  obtain ⟨pnext, hlinked, hlinks⟩ := hs
  have hq := m.parent (BlockMap.find_ancestor hb (hl.subset _ hmem))
  refine ⟨_, hlinked.down, ?_⟩
  rw [disconnectBlock_links hdis, hlinks, BlockMap.links_update hq]

/-- Connecting keeps the records in step because the new blocks have no link in memory. -/
theorem connect_climb_links {a b : CBlockIndex} {l : List CBlockIndex} (hl : Climb a l b)
    (hb : m.find b.getBlockHash = some b) {v r : List CTransaction} {s t : State}
    (hs : FiledAt m s.txdb a) (hoff : ∀ c ∈ l, s.pnext c = none)
    (h : l.foldlM (connectRound env host) v s = .ok r t) : FiledAt m t.txdb b := by
  -- the links in memory stay as they are until the commit
  suffices hboth : FiledAt m t.txdb b ∧ t.pnext = s.pnext from hboth.1
  refine connect_climb_keeps (P := fun q u => FiledAt m u.txdb q ∧ u.pnext = s.pnext) hl ?_
    ⟨hs, rfl⟩ h
  intro f q block u w hmem _ hconn hu
  obtain ⟨⟨pnext, hlinked, hlinks⟩, hpnext⟩ := hu
  have hc := BlockMap.find_ancestor hb (hl.subset _ hmem)
  have hsame : u.pnext (child f q) = pnext (child f q) := by
    rw [hpnext, hoff _ hmem, hlinked.off child_not_ancestor]
  refine ⟨⟨_, hlinked.up f, ?_⟩, ?_⟩
  · rw [connectBlock_links hconn, hlinks, hsame, BlockMap.links_update hc, Function.update_eq_self,
      BlockMap.links_update (m.parent hc)]
  · exact ((connectBlock_pending block (.child f q) false).ok hconn).pnext.trans hpnext

/-- The committed records are those of the blocks of `m` with the links in memory. -/
def Filed (m : BlockMap) (s : State) : Prop := linksOf s.txdb.committed = m.links s.pnext

theorem committed_links (db : CTxDB) (hash : uint256) :
    linksOf (db.writeHashBestChain hash).commit.committed = linksOf db.view := by
  rw [Db.committed_commit]
  exact linksOf_writeHashBestChain db hash

theorem reorganize_filed {b p : CBlockIndex} {s t : State} (hb : m.find b.getBlockHash = some b)
    (hp : m.find p.getBlockHash = some p) (hlinked : LinkedTo s.pnext b) (hfiled : Filed m s)
    (h : reorganize env host b p s.txnBegin = .ok () t) : Filed m t := by
  have hlinkedt := (reorganize_at (s := s.txnBegin) hlinked h).1.linked
  obtain ⟨pfork, vResurrect, vDelete, s₁, s₂, hfork, hd, hc, rfl⟩ := reorganize_ok h
  obtain ⟨hfb, hfp⟩ := findFork_mem hfork
  have hpnext := ((Keeps.foldlM Pending.refl Pending.trans disconnectRound_pending _ _).ok hd).pnext
  rw [← List.reverse_reverse (downTo pfork b)] at hd
  have hbegin : FiledAt m s.txnBegin.txdb b := ⟨s.pnext, hlinked, hfiled⟩
  have h₁ := disconnect_climb_links (climb_downTo hfb) hb hbegin hd
  -- what is connected is not on the old chain, so nothing follows it there
  have hoff : ∀ c ∈ (downTo pfork p).reverse, s₁.pnext c = none := by
    intro c hcmem
    have hclimb := climb_downTo hfp
    rw [hpnext]
    apply hlinked.off
    intro hcb
    exact hclimb.above c hcmem (findFork_highest hfork hcb (hclimb.subset c hcmem))
  obtain ⟨pnext, hlinked₂, hlinks⟩ := connect_climb_links (climb_downTo hfp) hp h₁ hoff hc
  unfold Filed
  rw [hlinkedt.unique hlinked₂, afterSwitch_txdb, committed_links, hlinks]

theorem setBestChainInner_filed {block : CBlock} {f : BlockFields} {a : CBlockIndex} {s t : State}
    (hc : m.find (child f a).getBlockHash = some (child f a)) (hfiled : Filed m s)
    (h : setBestChainInner env host block (.child f a) s.txnBegin = .ok () t) : Filed m t := by
  obtain ⟨s₁, hconn, rfl⟩ := setBestChainInner_ok h
  have hpnext : s₁.pnext = s.pnext := ((connectBlock_pending block (.child f a) false).ok hconn).pnext
  have hbegin : linksOf s.txnBegin.txdb.view = m.links s.pnext := hfiled
  change linksOf (s₁.txdb.writeHashBestChain _).commit.committed =
    m.links (Function.update s₁.pnext a (some (child f a)))
  have hsame : s.txnBegin.pnext = s.pnext := rfl
  rw [committed_links, connectBlock_links hconn, hbegin, hpnext, hsame, BlockMap.links_update hc,
    Function.update_eq_self, BlockMap.links_update (m.parent hc)]

theorem connectFurther_filed {a q : CBlockIndex} {l : List CBlockIndex} (hl : Climb a l q)
    (hq : m.find q.getBlockHash = some q) : ∀ {s : State}, Filed m s →
      connectsAll env host l s = true → Filed m (connectFurther env host l s) := by
  apply connectFurther_climb_keeps (P := fun _ s => Filed m s) hl
  intro f p block s t hmem _ hi hs
  exact setBestChainInner_filed (BlockMap.find_ancestor hq (hl.subset _ hmem)) hs hi

end Moves

section Call

variable {env : Env} {host : Host} {T : BlockTree env} {m : BlockMap}

/-- A call that connects all it intended to writes exactly the links it sets in memory. -/
theorem setBestChain_filed (hT : ∀ p, T.mem p → m.find p.getBlockHash = some p) {p : CBlockIndex}
    {s t : State} (hp : T.mem p) (hs : Unstarted s ∨ Settled T s) (hfiled : Filed m s)
    (hpostponed : postponedConnect env host (T.block p) p s = true)
    (h : setBestChain env host (T.block p) p s = .ok () t) : Filed m t := by
  obtain ⟨r, hmove, rfl⟩ := setBestChain_ok h
  change Filed m r
  cases moveBestChain_moved hp hs hmove with
  | started f hf hun _ ht =>
    subst ht
    exact (committed_links s.txnBegin.txdb _).trans hfiled
  | extended f q hf hbest _ hinner =>
    subst hf
    exact setBestChainInner_filed (hT _ hp) hfiled hinner
  | switched b r hbest hall hr ht =>
    subst ht
    rcases hs with hun | ⟨q, hq, hmem, _, _, hat⟩
    · rw [hun.pindexBest] at hbest
      cases hbest
    · rw [hq] at hbest
      cases hbest
      rw [hall] at hpostponed
      have hmid := T.ancestor_mem hp (postpone_mem b.nChainTrust p)
      exact connectFurther_filed (postpone_climb b.nChainTrust p) (hT p hp)
        (reorganize_filed (hT b hmem) (hT _ hmid) hat.linked hfiled hr) hpostponed

end Call

end Triangles

/-! What `LoadBlockIndex` makes of the records of an index. -/

namespace Triangles

open Outcome Batch CBlockIndex Forest

/-- What is relied on of `Hash9`: no header has the hash 0, which stands for no block, and
one with the hash of the first block has no previous block. -/
structure HeaderHash (env : Env) : Prop where
  ne_zero : ∀ header, env.hash9 header ≠ 0
  first : ∀ header, env.hash9 header = hashGenesisBlock → header.hashPrevBlock = 0

/-- What `AddToBlockIndex` makes sure of for the entry of a block. -/
structure Entered (env : IndexEnv) (p : CBlockIndex) : Prop where
  hash : env.hash9 p.getBlockHeader = p.getBlockHash
  first : p.pprev = none → p.getBlockHash = hashGenesisBlock
  trust : p.nChainTrust = chainTrust p.pprev p.fields.nBits
  checksum : p.fields.nStakeModifierChecksum = getStakeModifierChecksum env p.pprev
    p.fields.nFlags p.fields.hashProofOfStake p.fields.nStakeModifier
  checkpoint : checkStakeModifierCheckpoints env.toEnv p.nHeight p.fields.nStakeModifierChecksum = true
  stake : p.isProofOfStake = false → p.fields.prevoutStake = ⟨0, 0xffffffff⟩ ∧
    p.fields.nStakeTime = 0 ∧ p.fields.hashProofOfStake = 0

/-- An index in memory whose records are on disk. -/
structure Saved (env : IndexEnv) (disk : Store DbVal) (m : BlockMap)
    (pnext : CBlockIndex → Option CBlockIndex) : Prop where
  entered : ∀ {h p}, m.find h = some p → Entered env p
  links : linksOf disk = m.links pnext
  next : ∀ {p q}, pnext p = some q → m.find q.getBlockHash = some q

def CBlockIndex.entry (pnext : CBlockIndex → Option CBlockIndex) (p : CBlockIndex) : IndexEntry where
  pprev := p.pprev.map getBlockHash
  pnext := (pnext p).map getBlockHash
  nFile := p.fields.nFile
  nBlockPos := p.fields.nBlockPos
  nHeight := p.nHeight
  nChainTrust := p.nChainTrust
  nFlags := p.fields.nFlags
  nStakeModifier := p.fields.nStakeModifier
  nStakeModifierChecksum := p.fields.nStakeModifierChecksum
  prevoutStake := p.fields.prevoutStake
  nStakeTime := p.fields.nStakeTime
  hashProofOfStake := p.fields.hashProofOfStake
  nVersion := p.fields.nVersion
  hashMerkleRoot := p.fields.hashMerkleRoot
  nTime := p.fields.nTime
  nBits := p.fields.nBits
  nNonce := p.fields.nNonce

def CBlockIndex.copied (pnext : CBlockIndex → Option CBlockIndex) (p : CBlockIndex) : IndexEntry :=
  { p.entry pnext with nChainTrust := 0, nStakeModifierChecksum := 0 }

/-- The loaded entry under a hash, without the amounts. -/
def Loaded.entryAt (g : Loaded) (hash : uint256) : Option IndexEntry :=
  (g.mapBlockIndex.lookup hash).map LoadedIndex.toIndexEntry

section Insert

variable {M : AList fun _ : uint256 => LoadedIndex} {hash k : uint256}

theorem insertBlockIndex_fst : (insertBlockIndex M hash).1 = if hash = 0 then none else some hash := by
  unfold insertBlockIndex
  by_cases h0 : hash = 0
  · simp [h0]
  · by_cases hm : hash ∈ M <;> simp [h0, hm]

/-- Objects that are there stay as they are. -/
theorem insertBlockIndex_keeps {e : LoadedIndex} (h : M.lookup k = some e) :
    (insertBlockIndex M hash).2.lookup k = some e := by
  unfold insertBlockIndex
  split
  · exact h
  · split
    · exact h
    · rename_i hnot
      have hne : k ≠ hash := by
        rintro rfl
        exact hnot (AList.lookup_isSome.mp (by rw [h]; rfl))
      rw [AList.lookup_insert_ne hne]
      exact h

theorem insertBlockIndex_within (h : (insertBlockIndex M hash).2.lookup k ≠ none) :
    M.lookup k ≠ none ∨ k = hash ∧ hash ≠ 0 := by
  unfold insertBlockIndex at h
  split at h
  · exact .inl h
  · rename_i h0
    split at h
    · exact .inl h
    · by_cases hk : k = hash
      · exact .inr ⟨hk, h0⟩
      · rw [AList.lookup_insert_ne hk] at h
        exact .inl h

end Insert

section Load

variable {env : IndexEnv} {disk : Store DbVal} {m : BlockMap}
  {pnext : CBlockIndex → Option CBlockIndex}

theorem Entered.ne_zero (hhash : HeaderHash env.toEnv) {p : CBlockIndex} (h : Entered env p) :
    p.getBlockHash ≠ 0 := by
  rw [← h.hash]
  exact hhash.ne_zero _

/-- A stored hash leads back to the block it was taken from. -/
theorem pointer_of_hash {o : Option CBlockIndex} (h : ∀ p, o = some p → p.getBlockHash ≠ 0) :
    (if hashOrZero o = 0 then none else some (hashOrZero o)) = o.map getBlockHash := by
  cases o with
  | none => rfl
  | some p => exact if_neg (h p rfl)

/-- With or without the fast index, a record is entered under the block's hash. -/
theorem store_hash (host : LoadHost) {d : CDiskBlockIndex} (h : Entered env d.pindex) :
    (d.store env.toEnv).getBlockHash env.toEnv host = d.pindex.getBlockHash := by
  unfold StoredIndex.getBlockHash
  split <;> exact h.hash

/-- Reading a record back gives the entry, but for trust and checksum. -/
theorem store_entry {d : CDiskBlockIndex} (h : Entered env d.pindex) :
    ((d.store env.toEnv).entry (d.pindex.pprev.map getBlockHash)
      ((pnext d.pindex).map getBlockHash)).toIndexEntry = d.pindex.copied pnext := by
  cases hstake : d.pindex.isProofOfStake with
  | true =>
    simp only [StoredIndex.entry, CDiskBlockIndex.store, hstake, if_true, Option.map_some,
      Option.getD_some, CBlockIndex.copied, CBlockIndex.entry]
  | false =>
    obtain ⟨hprevout, htime, hproof⟩ := h.stake hstake
    simp only [StoredIndex.entry, CDiskBlockIndex.store, hstake, Bool.false_eq_true, if_false,
      Option.map_none, Option.getD_none, CBlockIndex.copied, CBlockIndex.entry, hprevout, htime, hproof]

/-- What the loop over the records has done after those of `before`. -/
structure Scanned (m : BlockMap) (pnext : CBlockIndex → Option CBlockIndex) (before : List uint256)
    (g : Loaded) : Prop where
  copied : ∀ {h p}, h ∈ before → m.find h = some p → g.entryAt h = some (p.copied pnext)
  within : ∀ {h}, g.mapBlockIndex.lookup h ≠ none → m.find h ≠ none
  stakes : ∀ x, x ∈ g.setStakeSeen ↔ ∃ h p, h ∈ before ∧ m.find h = some p ∧
    p.isProofOfStake = true ∧ x = (p.fields.prevoutStake, p.fields.nStakeTime)
  pindexBest : g.pindexBest = none
  nBestHeight : g.nBestHeight = -1
  nBestChainTrust : g.nBestChainTrust = 0

theorem scanned_nil : Scanned m pnext [] {} where
  copied := by simp
  within h := absurd rfl h
  stakes := by simp
  pindexBest := rfl
  nBestHeight := rfl
  nBestChainTrust := rfl

theorem Saved.record (hd : Saved env disk m pnext) {h : uint256} {d : CDiskBlockIndex}
    (hrecord : disk (.blockindex h) = some d) :
    m.find h = some d.pindex ∧ d.hashNext = hashOrZero (pnext d.pindex) := by
  have hlinks := congrFun hd.links h
  unfold linksOf BlockMap.links at hlinks
  rw [hrecord, Option.map_some] at hlinks
  obtain ⟨p, hp, heq⟩ := Option.map_eq_some_iff.mp hlinks.symm
  obtain ⟨rfl, hnext⟩ := Prod.mk.inj heq
  exact ⟨hp, hnext.symm⟩

theorem Saved.recorded (hd : Saved env disk m pnext) {h : uint256} {p : CBlockIndex}
    (hp : m.find h = some p) : (disk (.blockindex h)).isSome := by
  have hlinks := congrFun hd.links h
  unfold linksOf BlockMap.links at hlinks
  rw [hp, Option.map_some] at hlinks
  obtain ⟨d, hrecord, _⟩ := Option.map_eq_some_iff.mp hlinks
  rw [hrecord]
  rfl

/-- What a stored hash leads to is a block of the index. -/
theorem find_hashOrZero {o : Option CBlockIndex}
    (ho : ∀ q, o = some q → m.find q.getBlockHash = some q) (h0 : hashOrZero o ≠ 0) :
    m.find (hashOrZero o) ≠ none := by
  cases o with
  | none => exact absurd rfl h0
  | some q =>
    change m.find q.getBlockHash ≠ none
    rw [ho q rfl]
    exact Option.some_ne_none q

/-- One record makes its own entry and at most adds empty ones for its neighbours. -/
theorem loadRecord_map (hhash : HeaderHash env.toEnv) (hd : Saved env disk m pnext)
    (host : LoadHost) (g : Loaded) {h : uint256} {d : CDiskBlockIndex}
    (hrecord : disk (.blockindex h) = some d) :
    ∃ (M : AList fun _ : uint256 => LoadedIndex) (e : LoadedIndex),
      (loadRecord env.toEnv host g (d.store env.toEnv)).mapBlockIndex = M.insert h e ∧
      e.toIndexEntry = d.pindex.copied pnext ∧
      (∀ k e, g.mapBlockIndex.lookup k = some e → M.lookup k = some e) ∧
      ∀ k, M.lookup k ≠ none → g.mapBlockIndex.lookup k ≠ none ∨ m.find k ≠ none := by
  obtain ⟨hfind, hnext⟩ := hd.record hrecord
  have hentered := hd.entered hfind
  have hkey : (d.store env.toEnv).getBlockHash env.toEnv host = h :=
    (store_hash host hentered).trans (m.hash_eq hfind)
  have hprevs : ∀ q, d.pindex.pprev = some q → m.find q.getBlockHash = some q :=
    fun q hq => BlockMap.find_pprev hfind hq
  have hnexts : ∀ q, pnext d.pindex = some q → m.find q.getBlockHash = some q :=
    fun q hq => hd.next hq
  have hpprev := pointer_of_hash fun q hq => (hd.entered (hprevs q hq)).ne_zero hhash
  have hpnext := pointer_of_hash fun q hq => (hd.entered (hnexts q hq)).ne_zero hhash
  have hstored : (d.store env.toEnv).hashPrev = hashOrZero d.pindex.pprev := rfl
  have hstoredNext : (d.store env.toEnv).hashNext = hashOrZero (pnext d.pindex) := hnext
  unfold loadRecord
  simp only [hkey, insertBlockIndex_fst, hstored, hstoredNext, hpprev, hpnext]
  refine ⟨_, _, rfl, store_entry hentered, ?_, ?_⟩
  · intro k e he
    exact insertBlockIndex_keeps (insertBlockIndex_keeps (insertBlockIndex_keeps he))
  · intro k hk
    rcases insertBlockIndex_within hk with hk | ⟨rfl, h0⟩
    · rcases insertBlockIndex_within hk with hk | ⟨rfl, h0⟩
      · rcases insertBlockIndex_within hk with hk | ⟨rfl, _⟩
        · exact .inl hk
        · exact .inr (by simp [hfind])
      · exact .inr (find_hashOrZero hprevs h0)
    · exact .inr (find_hashOrZero hnexts h0)

theorem loadRecord_stakes (env : Env) (host : LoadHost) (g : Loaded) (d : CDiskBlockIndex) :
    (loadRecord env host g (d.store env)).setStakeSeen =
      if d.pindex.isProofOfStake then
        insert (d.pindex.fields.prevoutStake, d.pindex.fields.nStakeTime) g.setStakeSeen
      else g.setStakeSeen := by
  have hflags : ∀ pprev pnext, (((d.store env).entry pprev pnext).nFlags &&& BLOCK_PROOF_OF_STAKE != 0) =
      d.pindex.isProofOfStake := fun _ _ => rfl
  unfold loadRecord
  simp only [hflags]
  cases hstake : d.pindex.isProofOfStake with
  | true => simp [StoredIndex.entry, CDiskBlockIndex.store, hstake]
  | false => rfl

theorem loadRecord_scanned (hhash : HeaderHash env.toEnv) (hd : Saved env disk m pnext)
    (host : LoadHost) {before : List uint256} {g : Loaded} (hg : Scanned m pnext before g)
    {h : uint256} {d : CDiskBlockIndex} (hrecord : disk (.blockindex h) = some d) :
    Scanned m pnext (h :: before) (loadRecord env.toEnv host g (d.store env.toEnv)) := by
  have hfind := (hd.record hrecord).1
  obtain ⟨M, e, hmap, hentry, hkeeps, hwithin⟩ := loadRecord_map hhash hd host g hrecord
  refine ⟨?_, ?_, ?_, hg.pindexBest, hg.nBestHeight, hg.nBestChainTrust⟩
  · intro k p hk hp
    unfold Loaded.entryAt
    rw [hmap]
    by_cases hkh : k = h
    · rw [hkh, hfind] at hp
      cases hp
      rw [hkh, AList.lookup_insert, Option.map_some, hentry]
    · have hold := hg.copied ((List.mem_cons.mp hk).resolve_left hkh) hp
      obtain ⟨e', he, hentry'⟩ := Option.map_eq_some_iff.mp hold
      rw [AList.lookup_insert_ne hkh, hkeeps k e' he, Option.map_some, hentry']
  · intro k hk
    by_cases hkh : k = h
    · rw [hkh, hfind]
      exact Option.some_ne_none _
    · rw [hmap, AList.lookup_insert_ne hkh] at hk
      rcases hwithin k hk with hk | hk
      · exact hg.within hk
      · exact hk
  · intro x
    rw [loadRecord_stakes]
    constructor
    · intro hx
      split at hx
      · rename_i hstake
        rcases Finset.mem_insert.mp hx with rfl | hx
        · exact ⟨h, d.pindex, List.mem_cons_self, hfind, hstake, rfl⟩
        · obtain ⟨k, p, hk, hrest⟩ := (hg.stakes x).mp hx
          exact ⟨k, p, List.mem_cons_of_mem _ hk, hrest⟩
      · obtain ⟨k, p, hk, hrest⟩ := (hg.stakes x).mp hx
        exact ⟨k, p, List.mem_cons_of_mem _ hk, hrest⟩
    · rintro ⟨k, p, hk, hp, hstake, rfl⟩
      rcases List.mem_cons.mp hk with rfl | hk
      · rw [hfind] at hp
        cases hp
        rw [if_pos hstake]
        exact Finset.mem_insert_self _ _
      · have hold := (hg.stakes _).mpr ⟨k, p, hk, hp, hstake, rfl⟩
        split
        · exact Finset.mem_insert_of_mem hold
        · exact hold

theorem loadRecords_scanned (hhash : HeaderHash env.toEnv) (hd : Saved env disk m pnext)
    (host : LoadHost) (keys : List uint256) :
    ∀ {before : List uint256} {g : Loaded}, (∀ h ∈ keys, (disk (.blockindex h)).isSome) →
      Scanned m pnext before g →
      Scanned m pnext (keys.reverse ++ before)
        ((keys.filterMap fun h => (disk (.blockindex h)).map (CDiskBlockIndex.store env.toEnv)).foldl
          (loadRecord env.toEnv host) g) := by
  induction keys with
  | nil => exact fun _ hg => hg
  | cons h keys ih =>
    intro before g hkeys hg
    obtain ⟨hh, hkeys⟩ := List.forall_mem_cons.mp hkeys
    obtain ⟨d, hrecord⟩ := Option.isSome_iff_exists.mp hh
    rw [List.filterMap_cons, hrecord, List.reverse_cons, List.append_assoc]
    exact ih hkeys (loadRecord_scanned hhash hd host hg hrecord)

/-- The entry a round of the second loop makes of the one the first loop made. -/
theorem setTrust_entry {p : CBlockIndex} (hp : Entered env p) {e : LoadedIndex}
    {pprev : Option LoadedIndex}
    (he : e.toIndexEntry = p.entry pnext ∨ e.toIndexEntry = p.copied pnext)
    (hpprev : pprev.map LoadedIndex.toIndexEntry = p.pprev.map (CBlockIndex.entry pnext)) :
    e.chainTrust pprev = p.nChainTrust ∧
    e.stakeModifierChecksum env pprev = p.fields.nStakeModifierChecksum ∧
    { e with
      nChainTrust := p.nChainTrust
      nStakeModifierChecksum := p.fields.nStakeModifierChecksum }.toIndexEntry = p.entry pnext := by
  have htrust : pprev.map (fun q => q.nChainTrust) = p.pprev.map CBlockIndex.nChainTrust := by
    have h := congrArg (Option.map IndexEntry.nChainTrust) hpprev
    rw [Option.map_map, Option.map_map] at h
    exact h
  have hchecksum : pprev.map (fun q => q.nStakeModifierChecksum) =
      p.pprev.map (fun q => q.fields.nStakeModifierChecksum) := by
    have h := congrArg (Option.map IndexEntry.nStakeModifierChecksum) hpprev
    rw [Option.map_map, Option.map_map] at h
    exact h
  refine ⟨?_, ?_, ?_⟩
  · rw [hp.trust]
    unfold IndexEntry.chainTrust chainTrust
    rw [htrust]
    rcases he with he | he <;> rw [he] <;> rfl
  · rw [hp.checksum]
    unfold IndexEntry.stakeModifierChecksum getStakeModifierChecksum
    rw [hchecksum]
    rcases he with he | he <;> rw [he] <;> rfl
  · rcases he with he | he <;> simp only [he] <;> rfl

def indexItem (p : CBlockIndex) : Nat × uint256 := (p.nHeight, p.getBlockHash)

def prevItem (m : BlockMap) (item : Nat × uint256) : Option (Nat × uint256) :=
  ((m.find item.2).bind CBlockIndex.pprev).map indexItem

/-- What the loop over `vSortedByHeight` has done after the items of `before`. -/
def Trusted (m : BlockMap) (pnext : CBlockIndex → Option CBlockIndex) (before : List (Nat × uint256))
    (g : Loaded) : Prop :=
  ∀ h, g.entryAt h =
    (m.find h).map fun p => if indexItem p ∈ before then p.entry pnext else p.copied pnext

/-- One round of the loop over `vSortedByHeight`, with the previous block done. -/
theorem setTrust_trusted (hd : Saved env disk m pnext) {before : List (Nat × uint256)} {g : Loaded}
    (hg : Trusted m pnext before g) {item : Nat × uint256} {p : CBlockIndex}
    (hfind : m.find item.2 = some p) (hitem : item = indexItem p)
    (hprev : ∀ b, prevItem m item = some b → b ∈ before) :
    ∃ M, setTrust env item g = .ok () { g with mapBlockIndex := M } ∧
      Trusted m pnext (item :: before) { g with mapBlockIndex := M } := by
  have hp := hd.entered hfind
  have hat := hg item.2
  rw [hfind, Option.map_some] at hat
  obtain ⟨e, hlookup, hentry⟩ := Option.map_eq_some_iff.mp hat
  have he : e.toIndexEntry = p.entry pnext ∨ e.toIndexEntry = p.copied pnext := by
    rw [hentry]
    split
    · exact .inl rfl
    · exact .inr rfl
  have hepprev : e.pprev = p.pprev.map getBlockHash := by
    rcases he with he | he <;> rw [he] <;> rfl
  have heheight : e.nHeight = p.nHeight := by
    rcases he with he | he <;> rw [he] <;> rfl
  have hpprev : (e.pprev.bind g.mapBlockIndex.lookup).map LoadedIndex.toIndexEntry =
      p.pprev.map (CBlockIndex.entry pnext) := by
    rw [hepprev]
    cases hq : p.pprev with
    | none => rfl
    | some q =>
      have hbefore : indexItem q ∈ before := hprev _ (by rw [prevItem, hfind, Option.bind_some, hq]; rfl)
      have hatq := hg q.getBlockHash
      rw [BlockMap.find_pprev hfind hq, Option.map_some, if_pos hbefore] at hatq
      exact hatq
  obtain ⟨htrust, hchecksum, hnew⟩ := setTrust_entry hp he hpprev
  refine ⟨g.mapBlockIndex.insert item.2 { e with
    nChainTrust := p.nChainTrust
    nStakeModifierChecksum := p.fields.nStakeModifierChecksum }, ?_, ?_⟩
  · have hassert : ¬ (e.pprev = none ∧ item.2 ≠ hashGenesisBlock) := by
      rw [hepprev, hitem, Option.map_eq_none_iff]
      exact fun hnot => hnot.2 (hp.first hnot.1)
    unfold setTrust
    simp only [hlookup, htrust, hchecksum, hassert, if_false, heheight, hp.checkpoint, if_true]
  · intro h
    unfold Loaded.entryAt
    by_cases hh : h = item.2
    · rw [hh, AList.lookup_insert, Option.map_some, hnew, hfind, Option.map_some,
        if_pos (by rw [hitem]; exact List.mem_cons_self)]
    · simp only [AList.lookup_insert_ne hh]
      rw [← Loaded.entryAt, hg h]
      apply Option.map_congr
      intro q hq
      have hne : indexItem q ≠ item := by
        rintro rfl
        exact hh (m.hash_eq hq).symm
      simp only [List.mem_cons, hne, false_or]

theorem mem_sortedByHeight {host : LoadHost} {g : Loaded} {item : Nat × uint256} :
    item ∈ g.sortedByHeight host ↔ ∃ e, g.mapBlockIndex.lookup item.2 = some e ∧ e.nHeight = item.1 := by
  unfold Loaded.sortedByHeight
  rw [List.mem_insertionSort, List.mem_map]
  constructor
  · rintro ⟨⟨h, e⟩, hmem, rfl⟩
    exact ⟨e, AList.mem_lookup_iff.mpr hmem, rfl⟩
  · rintro ⟨e, he, hheight⟩
    exact ⟨⟨item.2, e⟩, AList.mem_lookup_iff.mp he, by rw [hheight]⟩

instance (host : LoadHost) : Std.Total (byHeight host) where
  total a b := by
    unfold byHeight
    omega

instance (host : LoadHost) : IsTrans (Nat × uint256) (byHeight host) where
  trans a b c := by
    unfold byHeight
    omega

theorem sortedByHeight_pairwise (host : LoadHost) (g : Loaded) :
    (g.sortedByHeight host).Pairwise fun a b => a.1 ≤ b.1 := by
  apply (List.pairwise_insertionSort (byHeight host) _).imp
  intro a b h
  unfold byHeight at h
  omega

theorem Scanned.trusted (hd : Saved env disk m pnext) {cursor : Cursor disk} {g : Loaded}
    (hg : Scanned m pnext (cursor.keys.reverse ++ []) g) : Trusted m pnext [] g := by
  intro h
  cases hfind : m.find h with
  | none =>
    have hnone : g.mapBlockIndex.lookup h = none := by
      by_contra hne
      exact hg.within hne hfind
    rw [Loaded.entryAt, hnone]
    rfl
  | some p =>
    have hkey := (cursor.complete h).mpr (hd.recorded hfind)
    rw [hg.copied (by simpa using hkey) hfind, Option.map_some, if_neg List.not_mem_nil]

/-- The blocks of the index are the items of `vSortedByHeight`. -/
theorem Trusted.mem_sorted {before : List (Nat × uint256)} {g : Loaded}
    (hg : Trusted m pnext before g) {host : LoadHost} {item : Nat × uint256} :
    item ∈ g.sortedByHeight host ↔ ∃ p, m.find item.2 = some p ∧ item = indexItem p := by
  have hheight : ∀ {h p}, m.find h = some p →
      (g.entryAt h).map IndexEntry.nHeight = some p.nHeight := by
    intro h p hp
    rw [hg h, hp, Option.map_some, Option.map_some]
    split <;> rfl
  rw [mem_sortedByHeight]
  constructor
  · rintro ⟨e, he, hitem⟩
    have hat := hg item.2
    rw [Loaded.entryAt, he, Option.map_some] at hat
    obtain ⟨p, hp, _⟩ := Option.map_eq_some_iff.mp hat.symm
    have hh := hheight hp
    rw [Loaded.entryAt, he] at hh
    refine ⟨p, hp, Prod.ext ?_ (m.hash_eq hp).symm⟩
    rw [← hitem]
    exact Option.some.inj hh
  · rintro ⟨p, hp, hitem⟩
    have hh := hheight hp
    unfold Loaded.entryAt at hh
    rw [Option.map_map] at hh
    obtain ⟨e, he, hheight⟩ := Option.map_eq_some_iff.mp hh
    exact ⟨e, he, by rw [hitem]; exact hheight⟩

theorem Trusted.parentsFirst {g : Loaded} (hg : Trusted m pnext [] g) (host : LoadHost) :
    ParentsFirst (prevItem m) [] (g.sortedByHeight host) := by
  apply parentsFirst_of_sorted (sortedByHeight_pairwise host g)
  intro item hitem b hb
  obtain ⟨p, hp, rfl⟩ := hg.mem_sorted.mp hitem
  rw [prevItem, hp, Option.bind_some] at hb
  obtain ⟨q, hq, rfl⟩ := Option.map_eq_some_iff.mp hb
  refine ⟨?_, .inr (hg.mem_sorted.mpr ⟨q, BlockMap.find_pprev hp hq, rfl⟩)⟩
  obtain ⟨f, rfl⟩ := pprev_eq_some hq
  exact Nat.lt_succ_self q.nHeight

/-- An index loaded up to the pointers to the best chain: all of the entries, and the stakes. -/
structure Restored (m : BlockMap) (pnext : CBlockIndex → Option CBlockIndex) (g : Loaded) : Prop where
  entries : ∀ h, g.entryAt h = (m.find h).map (CBlockIndex.entry pnext)
  stakes : ∀ x, x ∈ g.setStakeSeen ↔ ∃ h p, m.find h = some p ∧ p.isProofOfStake = true ∧
    x = (p.fields.prevoutStake, p.fields.nStakeTime)
  pindexBest : g.pindexBest = none
  nBestHeight : g.nBestHeight = -1
  nBestChainTrust : g.nBestChainTrust = 0

/-- The whole loop over `vSortedByHeight`. -/
theorem setTrusts_trusted (hd : Saved env disk m pnext) {g : Loaded} (hg : Trusted m pnext [] g)
    (host : LoadHost) :
    ∃ M, (g.sortedByHeight host).forM (setTrust env) g = .ok () { g with mapBlockIndex := M } ∧
      ∀ h, { g with mapBlockIndex := M }.entryAt h = (m.find h).map (CBlockIndex.entry pnext) := by
  obtain ⟨t, hrun, ⟨M, rfl⟩, hM⟩ := forM_parentsFirst (f := setTrust env)
    (P := fun item => ∃ p, m.find item.2 = some p ∧ item = indexItem p)
    (I := fun before t => (∃ M, t = { g with mapBlockIndex := M }) ∧ Trusted m pnext before t)
    (fun {before item t} hI hitem hprev => by
      obtain ⟨⟨M, rfl⟩, ht⟩ := hI
      obtain ⟨p, hfind, hitem⟩ := hitem
      obtain ⟨M', hrun, hM'⟩ := setTrust_trusted hd ht hfind hitem hprev
      exact ⟨_, hrun, ⟨M', rfl⟩, hM'⟩)
    (fun item hitem => hg.mem_sorted.mp hitem) (hg.parentsFirst host) ⟨⟨g.mapBlockIndex, rfl⟩, hg⟩
  refine ⟨M, hrun, fun h => ?_⟩
  rw [hM h]
  apply Option.map_congr
  intro p hp
  have hmem : indexItem p ∈ g.sortedByHeight host :=
    hg.mem_sorted.mpr ⟨p, by rw [indexItem, m.hash_eq hp]; exact hp, rfl⟩
  rw [if_pos (by simpa using hmem)]

/-- The two loops bring back the index whose records are on disk. -/
theorem loadBlockIndex_restores (hhash : HeaderHash env.toEnv) (hd : Saved env disk m pnext)
    (cursor : Cursor disk) (host : LoadHost) :
    ∃ g, loadBlockIndex env host disk cursor {} = loadBestChain disk g ∧ Restored m pnext g := by
  have hscanned := loadRecords_scanned hhash hd host cursor.keys
    (fun h hh => (cursor.complete h).mp hh) scanned_nil
  obtain ⟨M, hrun, hM⟩ := setTrusts_trusted hd (hscanned.trusted hd) host
  refine ⟨_, bind_of_ok (fun _ => loadBestChain disk) hrun, hM, ?_, hscanned.pindexBest,
    hscanned.nBestHeight, hscanned.nBestChainTrust⟩
  intro x
  rw [hscanned.stakes x]
  constructor
  · rintro ⟨h, p, _, hp, hrest⟩
    exact ⟨h, p, hp, hrest⟩
  · rintro ⟨h, p, hp, hrest⟩
    exact ⟨h, p, by simpa using (cursor.complete h).mpr (hd.recorded hp), hp, hrest⟩

end Load

end Triangles
