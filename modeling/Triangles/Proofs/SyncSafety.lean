import Mathlib.Logic.Relation
import Mathlib.Tactic.IntervalCases
import Triangles.Proofs.AcceptSpec
import Triangles.Proofs.Coherence
import Triangles.Proofs.StakeModifier

/-! The synchronized checkpoint only moves up, and on the main network the best chain keeps it. -/

namespace Triangles

open Outcome CBlockIndex

/-- The `pnext` links are links of the chain that ends in `p`, perhaps not all of them. -/
def LinksWithin (pnext : CBlockIndex → Option CBlockIndex) (p : CBlockIndex) : Prop :=
  ∀ b n, pnext b = some n → n.pprev = some b ∧ n ∈ p.ancestors

theorem LinksWithin.mono {pnext : CBlockIndex → Option CBlockIndex} {a p : CBlockIndex}
    (h : LinksWithin pnext a) (ha : a ∈ p.ancestors) : LinksWithin pnext p := by
  intro b n hn
  obtain ⟨hprev, hm⟩ := h b n hn
  exact ⟨hprev, ancestors_trans ha hm⟩

theorem LinksWithin.link {s : State} {p y : CBlockIndex} (h : LinksWithin s.pnext p)
    (hy : y ∈ p.ancestors) : LinksWithin (s.link y).pnext p := by
  unfold State.link
  cases hprev : y.pprev with
  | none => exact h
  | some x =>
    intro b n hn
    by_cases hb : b = x
    · subst hb
      simp only [State.setPnext, Function.update_self, Option.some.injEq] at hn
      subst hn
      exact ⟨hprev, hy⟩
    · simp only [State.setPnext, Function.update_of_ne hb] at hn
      exact h b n hn

theorem LinksWithin.foldl_link {p : CBlockIndex} {l : List CBlockIndex} (hl : ∀ y ∈ l, y ∈ p.ancestors) :
    ∀ {s : State}, LinksWithin s.pnext p → LinksWithin (l.foldl State.link s).pnext p := by
  induction l with
  | nil => exact fun h => h
  | cons y l ih =>
    intro s h
    rw [List.forall_mem_cons] at hl
    exact ih hl.2 (h.link hl.1)

/-- What is left after unlinking was there before, and leads to none of the unlinked blocks. -/
theorem foldl_unlink_pnext {b n : CBlockIndex} (l : List CBlockIndex) :
    ∀ {s : State}, (l.foldl State.unlink s).pnext b = some n →
      s.pnext b = some n ∧ ∀ y ∈ l, y.pprev ≠ some b := by
  induction l with
  | nil => exact fun h => ⟨h, by simp⟩
  | cons y l ih =>
    intro s h
    obtain ⟨hn, hl⟩ := ih (s := s.unlink y) h
    unfold State.unlink at hn
    cases hprev : y.pprev with
    | none =>
      rw [hprev] at hn
      refine ⟨hn, ?_⟩
      rw [List.forall_mem_cons, hprev]
      exact ⟨by simp, hl⟩
    | some x =>
      rw [hprev] at hn
      have hb : b ≠ x := by
        rintro rfl
        simp [State.setPnext] at hn
      simp only [State.setPnext, Function.update_of_ne hb] at hn
      refine ⟨hn, ?_⟩
      rw [List.forall_mem_cons, hprev]
      exact ⟨fun he => hb (Option.some.inj he).symm, hl⟩

/-- Unlinking down to an ancestor leaves the links below it. -/
theorem LinksWithin.unlink {s : State} {a p : CBlockIndex} (h : LinksWithin s.pnext p)
    (ha : a ∈ p.ancestors) : LinksWithin ((downTo a p).foldl State.unlink s).pnext a := by
  intro b n hn
  obtain ⟨hold, hnone⟩ := foldl_unlink_pnext _ hn
  obtain ⟨hprev, hm⟩ := h b n hold
  rw [ancestors_eq_append ha] at hm
  rcases List.mem_append.mp hm with hm | hm
  · exact absurd hprev (hnone n hm)
  · exact ⟨hprev, hm⟩

/-- The node has started, its best block is `b`, and it has no links off the chain of `b`. The
links may end below `b` when a postponed block did not connect. -/
structure OnChain (s : State) (b : CBlockIndex) : Prop where
  started : s.pindexGenesisBlock ≠ none
  best : s.pindexBest = some b
  hash : s.hashBestChain = b.getBlockHash
  links : LinksWithin s.pnext b

theorem OnChain.congr {s t : State} {b : CBlockIndex} (h : OnChain s b) (hst : SameChain s t) :
    OnChain t b where
  started := by rw [hst.pindexGenesisBlock]; exact h.started
  best := hst.pindexBest.trans h.best
  hash := hst.hashBestChain.trans h.hash
  links := by rw [hst.pnext]; exact h.links

/-- A block of the main chain is the best block or below it. -/
theorem OnChain.mem_of_main {s : State} {b p : CBlockIndex} (h : OnChain s b)
    (hp : s.isInMainChain p = true) : p ∈ b.ancestors := by
  simp only [State.isInMainChain, Bool.or_eq_true, Option.isSome_iff_exists, beq_iff_eq] at hp
  rcases hp with ⟨n, hn⟩ | hbest
  · obtain ⟨hprev, hm⟩ := h.links p n hn
    obtain ⟨f, rfl⟩ := pprev_eq_some hprev
    exact ancestors_trans hm (List.mem_cons_of_mem _ (self_mem_ancestors p))
  · rw [Option.some.inj (h.best.symm.trans hbest)]
    exact self_mem_ancestors p

section Moves

variable {env : Env} {host : Host}

theorem setBestChainInner_within {block : CBlock} {p q : CBlockIndex} {s t : State}
    (hs : LinksWithin s.pnext q) (hp : p ∈ q.ancestors)
    (h : setBestChainInner env host block p s = .ok () t) :
    LinksWithin t.pnext q ∧ t.pindexGenesisBlock = s.pindexGenesisBlock := by
  obtain ⟨s₁, hc, rfl⟩ := setBestChainInner_ok h
  have hpend := (connectBlock_pending block p false).ok hc
  have hlinks : LinksWithin s₁.pnext q := by
    rw [hpend.pnext]
    exact hs
  refine ⟨LinksWithin.link (s := { s₁ with txdb := _ }) hlinks hp, ?_⟩
  rw [← hpend.pindexGenesisBlock]
  unfold afterExtend State.link
  cases p.pprev <;> rfl

theorem connectFurther_within (env : Env) (host : Host) {q : CBlockIndex} (l : List CBlockIndex)
    (hl : ∀ y ∈ l, y ∈ q.ancestors) :
    ∀ {s : State}, LinksWithin s.pnext q →
      LinksWithin (connectFurther env host l s).pnext q ∧
        (connectFurther env host l s).pindexGenesisBlock = s.pindexGenesisBlock := by
  induction l with
  | nil => exact fun hs => ⟨hs, rfl⟩
  | cons y l ih =>
    intro s hs
    rw [List.forall_mem_cons] at hl
    rw [connectFurther]
    cases readBlockOf env host y with
    | error e => exact ⟨hs, rfl⟩
    | ok block =>
      cases hi : setBestChainInner env host block y s.txnBegin with
      | error e t =>
        have hu := setBestChainInner_error rfl hi
        simp only [hi]
        refine ⟨?_, hu.pindexGenesisBlock⟩
        rw [hu.pnext]
        exact hs
      | ok u t =>
        simp only [hi]
        obtain ⟨hlinks, hgen⟩ := setBestChainInner_within (s := s.txnBegin) hs hl.1 hi
        obtain ⟨hlinks', hgen'⟩ := ih hl.2 hlinks
        exact ⟨hlinks', hgen'.trans hgen⟩

theorem foldl_link_genesis (l : List CBlockIndex) (s : State) :
    (l.foldl State.link s).pindexGenesisBlock = s.pindexGenesisBlock := by
  rw [foldl_link_eq]

theorem foldl_unlink_genesis (l : List CBlockIndex) (s : State) :
    (l.foldl State.unlink s).pindexGenesisBlock = s.pindexGenesisBlock := by
  rw [foldl_unlink_eq]

theorem downTo_subset {a p : CBlockIndex} : downTo a p ⊆ p.ancestors := List.takeWhile_subset _

theorem reorganize_within {b m : CBlockIndex} {s t : State} (hs : LinksWithin s.pnext b)
    (h : reorganize env host b m s = .ok () t) :
    LinksWithin t.pnext m ∧ t.pindexGenesisBlock = s.pindexGenesisBlock := by
  obtain ⟨pfork, vResurrect, vDelete, s₁, s₂, hfork, hd, hc, rfl⟩ := reorganize_ok h
  obtain ⟨hb, hm⟩ := findFork_mem hfork
  have hpend := ((Keeps.foldlM Pending.refl Pending.trans disconnectRound_pending _ _).ok hd).trans
    _ _ _ ((Keeps.foldlM Pending.refl Pending.trans connectRound_pending _ _).ok hc)
  let s₃ : State := { s₂ with txdb := (s₂.txdb.writeHashBestChain m.getBlockHash).commit }
  have hlinks : LinksWithin s₃.pnext b := by
    change LinksWithin s₂.pnext b
    rw [hpend.pnext]
    exact hs
  constructor
  · refine LinksWithin.foldl_link ?_ ((hlinks.unlink hb).mono hm)
    intro y hy
    exact downTo_subset (List.mem_reverse.mp hy)
  · rw [← hpend.pindexGenesisBlock]
    unfold afterSwitch
    simp only [foldl_link_genesis, foldl_unlink_genesis]

/-- A successful `SetBestChain` ends on the chain of the new block. -/
theorem setBestChain_onChain {block : CBlock} {b p : CBlockIndex} {s t : State} (hs : OnChain s b)
    (hhash : block.getHash env = p.getBlockHash)
    (hext : block.hashPrevBlock = b.getBlockHash → p.pprev = some b)
    (h : setBestChain env host block p s = .ok () t) : OnChain t p := by
  obtain ⟨r, hmove, rfl⟩ := setBestChain_ok h
  suffices hr : LinksWithin r.pnext p ∧ r.pindexGenesisBlock = s.pindexGenesisBlock from
    ⟨fun hnone => hs.started (hr.2.symm.trans hnone), rfl, hhash, hr.1⟩
  cases moveBestChain_ok hmove with
  | start hfirst => exact absurd hfirst.1 hs.started
  | extend _ hprev hinner =>
    rw [hs.hash] at hprev
    obtain ⟨f, rfl⟩ := pprev_eq_some (hext hprev)
    exact setBestChainInner_within (s := s.txnBegin)
      (hs.links.mono (List.mem_cons_of_mem _ (self_mem_ancestors b))) (self_mem_ancestors _) hinner
  | switch _ _ b' r' hbest hr ht =>
    obtain rfl : b = b' := Option.some.inj (hs.best.symm.trans hbest)
    obtain ⟨hlinks, hgen⟩ := reorganize_within (s := s.txnBegin) hs.links hr
    have hsecond : ∀ y ∈ (p.postpone b.nChainTrust).2.reverse, y ∈ p.ancestors :=
      (postpone_climb b.nChainTrust p).subset
    obtain ⟨hlinks', hgen'⟩ := connectFurther_within env host _ hsecond
      (hlinks.mono (postpone_mem b.nChainTrust p))
    rw [← ht] at hlinks' hgen'
    exact ⟨hlinks', hgen'.trans hgen⟩

end Moves

/-- The synchronized checkpoint `c` and the best block `b` are indexed, `b` is on top of `c`
except perhaps on the test network, and the block files hold the blocks of the entries. -/
structure Anchored (env : Env) (n : FullNode) (c b : CBlockIndex) : Prop where
  chain : OnChain n.toState b
  best : n.mapBlockIndex.find b.getBlockHash = some b
  sync : n.getLastSyncCheckpoint = some c
  above : env.fTestNet = false → c ∈ b.ancestors
  files : ∀ h p q block, n.mapBlockIndex.find h = some p → p.pprev = some q →
    readFromDisk env p = .ok block → block.hashPrevBlock = q.getBlockHash

section Checkpoint

variable {env : Env} {host : Host}

theorem readBlockOf_ok {p : CBlockIndex} {block : CBlock} (h : readBlockOf env host p = .ok block) :
    readFromDisk env p = .ok block := by
  unfold readBlockOf at h
  split at h
  · cases h
  · exact h

theorem Anchored.moved {n t : FullNode} {c b b' : CBlockIndex} (h : Anchored env n c b)
    (hmap : t.mapBlockIndex = n.mapBlockIndex) (hsync : t.hashSyncCheckpoint = n.hashSyncCheckpoint)
    (hchain : OnChain t.toState b') (hbest : n.mapBlockIndex.find b'.getBlockHash = some b')
    (habove : env.fTestNet = false → c ∈ b'.ancestors) : Anchored env t c b' where
  chain := hchain
  best := by rw [hmap]; exact hbest
  sync := by
    unfold FullNode.getLastSyncCheckpoint
    rw [hmap, hsync]
    exact h.sync
  above := habove
  files := by rw [hmap]; exact h.files

/-- After the switch `c` is still the checkpoint below the best block, and if it succeeded the
best block is `p` or above it. -/
theorem Anchored.switch (host : Host) {n : FullNode} {c b p q : CBlockIndex}
    (h : Anchored env n c b)
    (hp : n.mapBlockIndex.find p.getBlockHash = some p) (hprev : p.pprev = some q)
    (hc : c ∈ p.ancestors) (caller : String) :
    ∃ b', Anchored env (leaves (switchToCheckpoint env host caller p) n) c b' ∧
      ∀ t, switchToCheckpoint env host caller p n = .ok () t → p ∈ b'.ancestors := by
  unfold switchToCheckpoint leaves
  by_cases hmain : n.isInMainChain p = true
  · simp only [hmain, if_true]
    exact ⟨b, h, fun _ _ => h.chain.mem_of_main hmain⟩
  · simp only [hmain, Bool.false_eq_true, if_false]
    cases hread : readBlockOf env host p with
    | error e => exact ⟨b, h, by simp⟩
    | ok block =>
      have hblock := h.files _ p q block hp hprev (readBlockOf_ok hread)
      cases hset : setBestChain env host block p n.toState with
      | ok u t =>
        have hext : block.hashPrevBlock = b.getBlockHash → p.pprev = some b := by
          intro he
          rw [hblock] at he
          have hq : n.mapBlockIndex.find q.getBlockHash = some q :=
            BlockMap.find_ancestor hp (mem_ancestors_of_pprev hprev)
          rw [he, h.best] at hq
          rw [hprev, hq]
        have hchain := setBestChain_onChain h.chain (readBlockOf_hash hread) hext hset
        have hrun := onState_ok.mpr ⟨t, hset, rfl⟩
        simp only [hrun]
        exact ⟨p, h.moved rfl rfl hchain hp fun _ => hc, fun _ _ => self_mem_ancestors p⟩
      | error e t =>
        have hrun := onState_error.mpr ⟨t, hset, rfl⟩
        have hchain := h.chain.congr (setBestChain_error_untouched hset).toSameChain
        simp only [hrun]
        exact ⟨b, h.moved rfl rfl hchain h.best h.above, by simp⟩

/-- `WriteSyncCheckpoint` changes the database, and if it succeeds the checkpoint. -/
theorem writeSyncCheckpoint_run (host : Host) (n : FullNode) (hash : uint256) : ∃ db,
    (∃ e, writeSyncCheckpoint host hash n =
      .error e { n with toState := { n.toState with txdb := db } }) ∨
    writeSyncCheckpoint host hash n =
      .ok () { n with toState := { n.toState with txdb := db }, hashSyncCheckpoint := hash } := by
  let db := n.txdb.start.write .hashSyncCheckpoint hash
  let m : FullNode := { n with toState := { n.toState with txdb := db } }
  have hwrite : writeSyncCheckpoint host hash n = (do
      onState (txnCommit host)
      modify fun n => { n with hashSyncCheckpoint := hash } : Full Unit) m := rfl
  rw [hwrite]
  cases hcommit : txnCommit host m.toState with
  | error e t =>
    have ht : t = { n.toState with txdb := t.txdb } := by
      unfold txnCommit at hcommit
      split at hcommit <;> cases hcommit
      rfl
    refine ⟨t.txdb, .inl ⟨e, run_bind_error.mpr (.inl (onState_error.mpr ⟨t, hcommit, ?_⟩))⟩⟩
    rw [ht]
  | ok u t =>
    have ht : t = { n.toState with txdb := t.txdb } := by rw [txnCommit_ok hcommit]
    refine ⟨t.txdb, .inr (run_bind_ok.mpr ⟨(), _, onState_ok.mpr ⟨t, hcommit, rfl⟩, ?_⟩)⟩
    rw [ht]
    rfl

/-- Adopting a block above the checkpoint leaves a checkpoint that is not below the old one. -/
theorem Anchored.adopt {n : FullNode} {c b p q : CBlockIndex} (h : Anchored env n c b)
    (hp : n.mapBlockIndex.find p.getBlockHash = some p) (hprev : p.pprev = some q)
    (hc : c ∈ p.ancestors) (caller : String) :
    ∃ c' b', Anchored env (leaves (adoptSyncCheckpoint env host caller p) n) c' b' ∧
      c ∈ c'.ancestors := by
  obtain ⟨b', hb', hmain⟩ := h.switch host hp hprev hc caller
  have hindex := switchToCheckpoint_sameIndex env host caller p n
  unfold adoptSyncCheckpoint
  cases hswitch : switchToCheckpoint env host caller p n with
  | error e t =>
    rw [leaves_bind_error _ hswitch]
    rw [leaves_error hswitch] at hb'
    exact ⟨c, b', hb', self_mem_ancestors c⟩
  | ok u t =>
    rw [leaves_bind_ok _ hswitch]
    rw [leaves_ok hswitch] at hb' hindex
    obtain ⟨db, ⟨e, he⟩ | hok⟩ := writeSyncCheckpoint_run host t p.getBlockHash
    · rw [leaves_bind_error _ (named_fails he)]
      exact ⟨c, b', hb'.moved rfl rfl (hb'.chain.congr ⟨rfl, rfl, rfl, rfl, rfl, rfl, rfl⟩) hb'.best
        hb'.above, self_mem_ancestors c⟩
    · rw [leaves_bind_ok _ (named_ok.mpr hok)]
      refine ⟨p, b', ⟨hb'.chain.congr ⟨rfl, rfl, rfl, rfl, rfl, rfl, rfl⟩, hb'.best, ?_, ?_, hb'.files⟩, hc⟩
      · rw [← hindex.mapBlockIndex] at hp
        exact hp
      · exact fun _ => hmain t hswitch

/-- A valid checkpoint is above the current one. -/
theorem valid_above {n : FullNode} {hashCheckpoint : uint256} {c p : CBlockIndex}
    (hc : n.getLastSyncCheckpoint = some c) (hp : n.mapBlockIndex.find hashCheckpoint = some p)
    (h : n.validateSyncCheckpoint hashCheckpoint = (true, n)) :
    c ∈ p.ancestors ∧ c.nHeight < p.nHeight := by
  obtain ⟨_, c', p', hc', hp', hheight, hback⟩ := validateSyncCheckpoint_true h
  cases hc.symm.trans hc'
  cases hp.symm.trans hp'
  have hfound : n.mapBlockIndex.find p.getBlockHash = some p := by
    rw [n.mapBlockIndex.hash_eq hp]
    exact hp
  have hlow := BlockMap.find_ancestor hfound (lowerTo_mem c.nHeight p)
  rw [hback, hc'] at hlow
  refine ⟨?_, hheight⟩
  rw [Option.some.inj hlow]
  exact lowerTo_mem _ _

theorem CheckpointStep.anchored {n t : FullNode} {c b : CBlockIndex}
    (hstep : CheckpointStep env host n t) (h : Anchored env n c b) :
    ∃ c' b', Anchored env t c' b' ∧ c ∈ c'.ancestors := by
  cases hstep with
  | noted pending invalid =>
    exact ⟨c, b, h.moved rfl rfl h.chain h.best h.above, self_mem_ancestors c⟩
  | adopted caller hashCheckpoint p hvalid hp =>
    obtain ⟨hmem, hheight⟩ := valid_above h.sync hp hvalid
    have hfound : n.mapBlockIndex.find p.getBlockHash = some p := by
      rw [n.mapBlockIndex.hash_eq hp]
      exact hp
    cases p with
    | genesis f => exact absurd hheight (Nat.not_lt_zero _)
    | child f q => exact h.adopt hfound rfl hmem caller

end Checkpoint

section Accept

/-- Writing the record of a block leaves the best block, or makes the new one the best. -/
theorem recordBlockIndex_onChain {env : Env} (host : Host) {block : CBlock} {b p : CBlockIndex}
    {s : State} (hs : OnChain s b) (hhash : block.getHash env = p.getBlockHash)
    (hext : block.hashPrevBlock = b.getBlockHash → p.pprev = some b) :
    OnChain (leaves (recordBlockIndex env host block p) s) b ∨
      OnChain (leaves (recordBlockIndex env host block p) s) p := by
  let s₁ : State := { s.txnBegin with
    txdb := s.txnBegin.txdb.writeBlockIndex (s.txnBegin.diskBlockIndex p) }
  have hs₁ : SameChain s s₁ := ⟨rfl, rfl, rfl, rfl, rfl, rfl, rfl⟩
  have hrecord : leaves (recordBlockIndex env host block p) s = leaves (do
      txnCommit host
      let s ← get
      if s.nBestChainTrust < p.nChainTrust then setBestChain env host block p : Node Unit) s₁ := rfl
  rw [hrecord]
  cases hcommit : txnCommit host s₁ with
  | error e t =>
    rw [leaves_bind_error _ hcommit]
    exact .inl ((hs.congr hs₁).congr (txnCommit_error hcommit).toSameChain)
  | ok u t =>
    rw [leaves_bind_ok _ hcommit]
    have ht : OnChain t b := by
      rw [txnCommit_ok hcommit]
      exact (hs.congr hs₁).congr ⟨rfl, rfl, rfl, rfl, rfl, rfl, rfl⟩
    change OnChain (leaves (if t.nBestChainTrust < p.nChainTrust then setBestChain env host block p
      else pure ()) t) b ∨ OnChain (leaves (if t.nBestChainTrust < p.nChainTrust then
        setBestChain env host block p else pure ()) t) p
    split
    · cases hset : setBestChain env host block p t with
      | error e r =>
        rw [leaves_error hset]
        exact .inl (ht.congr (setBestChain_error_untouched hset).toSameChain)
      | ok u r =>
        rw [leaves_ok hset]
        exact .inr (setBestChain_onChain ht hhash hext hset)
    · exact .inl ht

/-- A new block that satisfies `CheckSync` on the main network is on top of the checkpoint. -/
theorem checkSync_above {n : FullNode} {c p : CBlockIndex} {hash : uint256}
    (hc : n.getLastSyncCheckpoint = some c) (hp : n.mapBlockIndex.find p.getBlockHash = some p)
    (hfresh : n.mapBlockIndex.find hash = none) (h : n.checkSync false hash p = .ok true) :
    c ∈ p.ancestors := by
  unfold FullNode.getLastSyncCheckpoint at hc
  simp only [FullNode.checkSync, Bool.false_eq_true, if_false, hc, Except.ok.injEq] at h
  by_cases habove : c.nHeight < p.nHeight + 1
  · by_cases hback : (p.lowerTo c.nHeight).getBlockHash = n.hashSyncCheckpoint
    · have hlow := BlockMap.find_ancestor hp (lowerTo_mem c.nHeight p)
      rw [hback, hc] at hlow
      rw [Option.some.inj hlow]
      exact lowerTo_mem _ _
    · rw [if_pos ⟨habove, .inr hback⟩] at h
      cases h
  · -- below the checkpoint only blocks that are already indexed satisfy the check
    rw [if_neg (fun hh => habove hh.1)] at h
    by_cases hsame : hash = n.hashSyncCheckpoint
    · rw [← hsame, hfresh] at hc
      cases hc
    · have hhas : n.mapBlockIndex.has hash = false := by simp [BlockMap.has, hfresh]
      rcases Nat.lt_or_ge (p.nHeight + 1) c.nHeight with hlow | hge
      · rw [if_neg (fun hh => absurd hh.1 hlow.ne), if_pos ⟨hlow, hhas⟩] at h
        cases h
      · rw [if_pos ⟨le_antisymm (not_lt.mp habove) hge, hsame⟩] at h
        cases h

variable {env : IndexEnv} {host : AcceptHost} {n : FullNode} {block : CBlock} {c b : CBlockIndex}

/-- The block read for a new entry is the one that was stored for it. -/
theorem newBlockIndex_readFromDisk {m : BlockMap} {block block' : CBlock} {spot : DiskSpot}
    {hashProofOfStake : uint256} {pindexNew : CBlockIndex}
    (h : newBlockIndex env m block spot hashProofOfStake = .ok pindexNew)
    (hstored : env.readBlock spot.nFile spot.nBlockPos = some block)
    (hread : readFromDisk env.toEnv pindexNew = .ok block') : block' = block := by
  obtain ⟨_, _, _, rfl⟩ := newBlockIndex_ok h
  simp only [readFromDisk, readBlockFromDisk, CBlockIndex.onTop_fields, newBlockFields, hstored,
    bind_ok, check_ok, pure_ok] at hread
  obtain ⟨_, ⟨_, _, rfl⟩, _, _, rfl⟩ := hread
  rfl

/-- Entering a block moves neither the best block nor the checkpoint. -/
theorem Anchored.enter {mode : CPMode} {pindexNew : CBlockIndex} (h : Anchored env.toEnv n c b)
    (hstored : ∀ spot, host.spot = some spot →
      env.readBlock spot.nFile spot.nBlockPos = some block)
    (hadmits : Admits env mode host n block pindexNew) :
    Anchored env.toEnv hadmits.entered c b where
  chain := {
    started := h.chain.started
    best := h.chain.best
    hash := h.chain.hash
    links := by
      intro x y hy
      change Function.update n.pnext pindexNew none x = some y at hy
      have hx : x ≠ pindexNew := by
        rintro rfl
        rw [Function.update_self] at hy
        cases hy
      rw [Function.update_of_ne hx] at hy
      exact h.chain.links x y hy }
  best := hadmits.find_old h.best
  sync := hadmits.find_old h.sync
  above := h.above
  files := by
    intro hash p q block' hp hprev hread
    rw [hadmits.entered_find] at hp
    split at hp
    · cases hp
      obtain ⟨_, spot, _, hspot, hnew⟩ := hadmits
      have hfound := newBlockIndex_pprev hnew
      rw [hprev] at hfound
      have hblock := newBlockIndex_readFromDisk hnew (hstored spot hspot) hread
      rw [hblock, n.mapBlockIndex.hash_eq hfound.symm]
    · exact h.files hash p q block' hp hprev hread

theorem acceptBlock_anchored (h : Anchored env.toEnv n c b)
    (hstored : ∀ spot, host.spot = some spot →
      env.readBlock spot.nFile spot.nBlockPos = some block) :
    ∃ c' b', Anchored env.toEnv (leaves (acceptBlock env .STRICT host block) n) c' b' ∧
      c ∈ c'.ancestors := by
  rcases acceptBlock_cases env .STRICT host n block with ⟨e, he⟩ | ⟨pindexNew, hadmits, hrun⟩
  · rw [leaves_error he]
    exact ⟨c, b, h, self_mem_ancestors c⟩
  · have hentered := h.enter hstored hadmits
    obtain ⟨p, hprev, hpasses⟩ := hadmits.passes
    have hp : n.mapBlockIndex.find p.getBlockHash = some p := hadmits.prev p hprev
    have hnew : hadmits.entered.mapBlockIndex.find pindexNew.getBlockHash = some pindexNew := by
      rw [hadmits.entered_find, if_pos rfl]
    have habove : env.fTestNet = false → c ∈ pindexNew.ancestors := by
      intro hmain
      have hsync := hpasses.sync rfl
      rw [hmain] at hsync
      exact ancestors_trans (mem_ancestors_of_pprev hprev)
        (checkSync_above h.sync hp hpasses.fresh hsync)
    have hext : block.hashPrevBlock = b.getBlockHash → pindexNew.pprev = some b := by
      intro he
      have hfound := hpasses.prev
      rw [he, h.best] at hfound
      rw [hprev, hfound]
    -- the record decides which block is the best one
    have hrecorded : ∃ b', Anchored env.toEnv (leaves (onState
        (recordBlockIndex env.toEnv host.toHost block pindexNew)) hadmits.entered) c b' := by
      rw [onState_leaves]
      rcases recordBlockIndex_onChain host.toHost hentered.chain hadmits.hash.symm hext with
        hold | hbest
      · exact ⟨b, hentered.moved rfl rfl hold hentered.best hentered.above⟩
      · exact ⟨pindexNew, hentered.moved rfl rfl hbest hnew habove⟩
    obtain ⟨b', hb'⟩ := hrecorded
    rcases hrun with ⟨e, e', t, hrec, hacc⟩ | ⟨t, hrec, hacc⟩
    · rw [leaves_error hrec] at hb'
      rw [leaves_error hacc]
      exact ⟨c, b', hb', self_mem_ancestors c⟩
    · rw [leaves_ok hrec] at hb'
      rw [leaves_ok hacc]
      exact (acceptPendingSyncCheckpoint_step t).anchored hb'

end Accept

/-! Runs. -/

/-- The steps of a node in strict mode: a block is offered, and the block files give back what
they are given; a checkpoint message arrives; the pending checkpoint is looked at. -/
inductive SyncStep (env : IndexEnv) (n : FullNode) : FullNode → Prop
  | acceptBlock (host : AcceptHost) (block : CBlock)
      (hstored : ∀ spot, host.spot = some spot →
        env.readBlock spot.nFile spot.nBlockPos = some block) :
      SyncStep env n (leaves (acceptBlock env .STRICT host block) n)
  | processSyncCheckpoint (host : Host) (signed : Option uint256) :
      SyncStep env n (leaves (processSyncCheckpoint env.toEnv host signed) n)
  | acceptPendingSyncCheckpoint (host : Host) :
      SyncStep env n (leaves (acceptPendingSyncCheckpoint env.toEnv host) n)

/-- The index has the first block only, which is the best block and the checkpoint. -/
structure AtGenesis (n : FullNode) (f : BlockFields) : Prop where
  index : ∀ h, n.mapBlockIndex.find h = if h = f.phashBlock then some (.genesis f) else none
  genesis : n.pindexGenesisBlock = some (.genesis f)
  best : n.pindexBest = some (.genesis f)
  hash : n.hashBestChain = f.phashBlock
  links : n.pnext = fun _ => none
  sync : n.hashSyncCheckpoint = f.phashBlock

/-- The states of a node that started with the first block. -/
def SyncReached (env : IndexEnv) (n : FullNode) : Prop :=
  ∃ n₀ f, AtGenesis n₀ f ∧ Relation.ReflTransGen (SyncStep env) n₀ n

section Run

variable {env : IndexEnv} {n m : FullNode}

theorem AtGenesis.anchored (env : IndexEnv) {f : BlockFields} (h : AtGenesis n f) :
    Anchored env.toEnv n (.genesis f) (.genesis f) where
  chain := ⟨by simp [h.genesis], h.best, h.hash, by intro x y hy; simp [h.links] at hy⟩
  best := by rw [h.index]; exact if_pos rfl
  sync := by
    unfold FullNode.getLastSyncCheckpoint
    rw [h.index, h.sync, if_pos rfl]
  above := fun _ => self_mem_ancestors _
  files := by
    intro hash p q block hp hprev _
    rw [h.index] at hp
    split at hp
    · cases hp
      cases hprev
    · cases hp

theorem SyncStep.anchored {c b : CBlockIndex} (hstep : SyncStep env n m)
    (h : Anchored env.toEnv n c b) : ∃ c' b', Anchored env.toEnv m c' b' ∧ c ∈ c'.ancestors := by
  cases hstep with
  | acceptBlock host block hstored => exact acceptBlock_anchored h hstored
  | processSyncCheckpoint host signed => exact (processSyncCheckpoint_step signed n).anchored h
  | acceptPendingSyncCheckpoint host => exact (acceptPendingSyncCheckpoint_step n).anchored h

theorem anchored_run {c b : CBlockIndex} (hrun : Relation.ReflTransGen (SyncStep env) n m)
    (h : Anchored env.toEnv n c b) : ∃ c' b', Anchored env.toEnv m c' b' ∧ c ∈ c'.ancestors := by
  induction hrun with
  | refl => exact ⟨c, b, h, self_mem_ancestors c⟩
  | tail _ hstep ih =>
    obtain ⟨c₁, b₁, h₁, hc₁⟩ := ih
    obtain ⟨c₂, b₂, h₂, hc₂⟩ := hstep.anchored h₁
    exact ⟨c₂, b₂, h₂, ancestors_trans hc₂ hc₁⟩

/-- In every run in strict mode a new value of the synchronized checkpoint is a proper
descendant of the old one. On the main network the best block of every later state is the
checkpoint or above it. -/
theorem sync_checkpoint_safe (hn : SyncReached env n)
    (hrun : Relation.ReflTransGen (SyncStep env) n m) :
    (∀ t, SyncStep env m t → t.hashSyncCheckpoint ≠ m.hashSyncCheckpoint →
      ∃ c d, m.getLastSyncCheckpoint = some c ∧ t.getLastSyncCheckpoint = some d ∧
        c ∈ d.ancestors ∧ c ≠ d) ∧
    (env.fTestNet = false → ∃ c b, n.getLastSyncCheckpoint = some c ∧ m.pindexBest = some b ∧
      c ∈ b.ancestors) := by
  obtain ⟨n₀, f, hstart, hreach⟩ := hn
  obtain ⟨c, b, hc, _⟩ := anchored_run hreach (AtGenesis.anchored env hstart)
  obtain ⟨c', b', hc', hmem⟩ := anchored_run hrun hc
  constructor
  · intro t hstep hnew
    obtain ⟨d, _, hd, hcd⟩ := hstep.anchored hc'
    refine ⟨c', d, hc'.sync, hd.sync, hcd, ?_⟩
    rintro rfl
    exact hnew ((t.mapBlockIndex.hash_eq hd.sync).symm.trans (m.mapBlockIndex.hash_eq hc'.sync))
  · intro hmain
    exact ⟨c, b', hc.sync, hc'.chain.best, ancestors_trans (hc'.above hmain) hmem⟩

end Run

namespace Sample

def firstPending : uint256 := 0x224940e1f986a202209b8e762728d1452ab45870c308abf84905674acf326a47

def rootFields : BlockFields :=
  { fieldsOf hashGenesisBlock 0 8 1 with nFlags := 4, nBits := 0x2000ffff }

def rootMap : BlockMap where
  find h := if h = hashGenesisBlock then some (.genesis rootFields) else none
  hash_eq := by
    intro h p hp
    split at hp
    · cases hp
      exact Eq.symm ‹_›
    · cases hp
  parent := by
    intro h f p hp
    split at hp <;> cases hp

/-- A node that has only the first block. -/
def rootNode : FullNode :=
  { nodeWith fun _ => none with
    pindexGenesisBlock := some (.genesis rootFields)
    pindexBest := some (.genesis rootFields)
    mapBlockIndex := rootMap
    setStakeSeen := ∅
    hashSyncCheckpoint := hashGenesisBlock
    hashPendingCheckpoint := firstPending
    hashInvalidCheckpoint := 0 }

theorem rootNode_atGenesis : AtGenesis rootNode rootFields := ⟨fun _ => rfl, rfl, rfl, rfl, rfl, rfl⟩

def powBlock (k : Nat) : CBlock :=
  blockOf (if k = 1 then hashGenesisBlock else 400 * (k - 1)) (UInt32.ofNat (400 * k))
    [coinbase (UInt32.ofNat (400 * k)) COIN (UInt8.ofNat k)]

def minedAt (k : Nat) : BlockFields :=
  fieldsOf (400 * k) (UInt32.ofNat (400 * k)) (UInt32.ofNat (400 * k)) 1

def eleventhStake : CTransaction :=
  { transfer 4100 [⟨400, 0⟩] [] with vout := [⟨0, []⟩, ⟨COIN, opTrue⟩] }

def pendingBlock : CBlock := blockOf 4000 4100 [{ coinbase 4099 0 11 with vout := [⟨0, []⟩] }, eleventhStake]

def harderBlock : CBlock := { blockOf 4000 4200 [coinbase 4199 COIN 11] with nBits := 0x1c00ffff }

def netEnv (fTestNet : Bool) : IndexEnv :=
  { env (((List.range 10).map fun k => (.genesis (minedAt (k + 1)), powBlock (k + 1))) ++
      [(.genesis (fieldsOf firstPending 4100 8000 1), pendingBlock),
        (.genesis (fieldsOf 4200 4200 9000 1), harderBlock)]) with
    hash9 := fun header => if header.nTime = 0 then hashGenesisBlock
      else if header.nTime = 4100 then firstPending else header.nTime.toNat
    fTestNet := fTestNet
    hashChecksum := fun _ _ _ _ => 0 }

def minedHost (f : BlockFields) : AcceptHost where
  nAdjustedTime := 5000
  spot := some ⟨f.nFile, f.nBlockPos, f.nFile_ne, f.nBlockPos_ge⟩

def mined (fTestNet : Bool) : Nat → FullNode
  | 0 => rootNode
  | k + 1 => leaves (acceptBlock (netEnv fTestNet) .STRICT (minedHost (minedAt (k + 1))) (powBlock (k + 1)))
      (mined fTestNet k)

def checkpointed (fTestNet : Bool) : FullNode :=
  leaves (acceptBlock (netEnv fTestNet) .STRICT (minedHost (fieldsOf firstPending 4100 8000 1)) pendingBlock)
    (mined fTestNet 10)

def contested (fTestNet : Bool) : FullNode :=
  leaves (acceptBlock (netEnv fTestNet) .STRICT (minedHost (fieldsOf 4200 4200 9000 1)) harderBlock)
    (checkpointed fTestNet)

/-- The block files give back the blocks mined. -/
theorem powBlock_stored (fTestNet : Bool) {k : Nat} (hk : k < 10) (spot : DiskSpot)
    (hspot : (minedHost (minedAt (k + 1))).spot = some spot) :
    (netEnv fTestNet).readBlock spot.nFile spot.nBlockPos = some (powBlock (k + 1)) := by
  cases hspot
  interval_cases k <;> rfl

theorem pendingBlock_stored (fTestNet : Bool) : ∀ spot,
    (minedHost (fieldsOf firstPending 4100 8000 1)).spot = some spot →
    (netEnv fTestNet).readBlock spot.nFile spot.nBlockPos = some pendingBlock := by
  intro spot hspot
  cases hspot
  rfl

theorem harderBlock_stored (fTestNet : Bool) : ∀ spot,
    (minedHost (fieldsOf 4200 4200 9000 1)).spot = some spot →
    (netEnv fTestNet).readBlock spot.nFile spot.nBlockPos = some harderBlock := by
  intro spot hspot
  cases hspot
  rfl

theorem mined_run (fTestNet : Bool) {k : Nat} (hk : k ≤ 10) :
    Relation.ReflTransGen (SyncStep (netEnv fTestNet)) rootNode (mined fTestNet k) := by
  induction k with
  | zero => exact .refl
  | succ k ih =>
    exact .tail (ih (by omega)) (.acceptBlock _ _ (powBlock_stored fTestNet (by omega)))

theorem checkpointed_reached (fTestNet : Bool) :
    SyncReached (netEnv fTestNet) (checkpointed fTestNet) :=
  ⟨rootNode, rootFields, rootNode_atGenesis,
    .tail (mined_run fTestNet le_rfl) (.acceptBlock _ _ (pendingBlock_stored fTestNet))⟩

theorem contested_run (fTestNet : Bool) : Relation.ReflTransGen (SyncStep (netEnv fTestNet))
    (checkpointed fTestNet) (contested fTestNet) :=
  .single (.acceptBlock _ _ (harderBlock_stored fTestNet))

end Sample

/-- On the main network the checkpoint is kept when a block with more trust is offered
beside it. -/
theorem harderBlock_keeps_checkpoint :
    (Sample.checkpointed false).hashSyncCheckpoint = Sample.firstPending ∧
    ∃ c b, (Sample.checkpointed false).getLastSyncCheckpoint = some c ∧
      (Sample.contested false).pindexBest = some b ∧ c ∈ b.ancestors :=
  ⟨by decide +kernel,
    (sync_checkpoint_safe (Sample.checkpointed_reached false) (Sample.contested_run false)).2 rfl⟩

/-- On the test network that block takes the place of the checkpoint. -/
theorem harderBlock_drops_checkpoint :
    ¬∀ (env : IndexEnv) (n m : FullNode), SyncReached env n →
      Relation.ReflTransGen (SyncStep env) n m →
      ∃ c b, n.getLastSyncCheckpoint = some c ∧ m.pindexBest = some b ∧ c ∈ b.ancestors := by
  intro h
  obtain ⟨c, b, hc, hb, hmem⟩ := h _ _ _ (Sample.checkpointed_reached true) (Sample.contested_run true)
  have hhash : (Sample.checkpointed true).getLastSyncCheckpoint.map CBlockIndex.getBlockHash =
      some Sample.firstPending := by decide +kernel
  have hbest : ((Sample.contested true).pindexBest.map fun b =>
      (b.ancestors.map CBlockIndex.getBlockHash).contains Sample.firstPending) = some false := by
    decide +kernel
  simp only [hc, Option.map_some, Option.some.injEq] at hhash
  simp only [hb, Option.map_some, Option.some.injEq] at hbest
  have hin : c.getBlockHash ∈ b.ancestors.map CBlockIndex.getBlockHash := List.mem_map_of_mem hmem
  rw [hhash, ← List.contains_iff_mem, hbest] at hin
  cases hin

end Triangles
