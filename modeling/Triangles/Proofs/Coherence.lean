import Triangles.Proofs.Chain

/-! Whether the best chain in memory and on disk stay the same chain. -/

namespace Triangles

open Outcome Batch CBlockIndex

/-- The indexed blocks with their contents. `mapBlockIndex` is keyed by hash and an entry is
made after its parent; 0 stands for no block. -/
structure BlockTree (env : Env) where
  mem : CBlockIndex → Prop
  block : CBlockIndex → CBlock
  parent_mem : ∀ {f p}, mem (.child f p) → mem p
  hash_inj : ∀ {a b}, mem a → mem b → a.getBlockHash = b.getBlockHash → a = b
  hash_ne_zero : ∀ {a}, mem a → a.getBlockHash ≠ 0
  genesis_hash : ∀ {a}, mem a → (a.getBlockHash = hashGenesisBlock ↔ ∃ f, a = .genesis f)
  block_hash : ∀ {a}, mem a → (block a).getHash env = a.getBlockHash
  block_prev : ∀ {a}, mem a →
    (block a).hashPrevBlock = (a.pprev.map CBlockIndex.getBlockHash).getD 0

theorem BlockTree.ancestor_mem {env : Env} (T : BlockTree env) {a p : CBlockIndex} (hp : T.mem p)
    (ha : a ∈ p.ancestors) : T.mem a := by
  induction p with
  | genesis f =>
    rw [List.mem_singleton.mp ha]
    exact hp
  | child f p ih =>
    rcases List.mem_cons.mp ha with rfl | ha
    · exact hp
    · exact ih (T.parent_mem hp) ha

/-- Memory, disk and links describe one chain. -/
structure Coherent (s : State) : Prop where
  disk : s.txdb.committed .hashBestChain = some s.hashBestChain
  best : ∃ p, s.pindexBest = some p ∧ p.getBlockHash = s.hashBestChain
  main : ∀ b, s.isInMainChain b = true ↔ ∃ p, s.pindexBest = some p ∧ b ∈ p.ancestors
  links : ∀ b, s.isInMainChain b = true → s.pindexBest ≠ some b →
    ∃ n, s.pnext b = some n ∧ n.pprev = some b

def connectsAll (env : Env) (host : Host) : List CBlockIndex → State → Bool
  | [], _ => true
  | pindex :: rest, s =>
    match readBlockOf env host pindex with
    | .error _ => false
    | .ok block =>
      match setBestChainInner env host block pindex s.txnBegin with
      | .error _ _ => false
      | .ok _ t => connectsAll env host rest t

/-- The same of a call: only the branch that reorganizes postpones blocks. -/
def postponedConnect (env : Env) (host : Host) (block : CBlock) (pindexNew : CBlockIndex)
    (s : State) : Bool :=
  if s.pindexGenesisBlock = none ∧ block.getHash env = hashGenesisBlock then true
  else if block.hashPrevBlock = s.hashBestChain then true
  else
    match s.pindexBest with
    | none => true
    | some pindexBest =>
      let (pindexIntermediate, vpindexSecondary) := pindexNew.postpone pindexBest.nChainTrust
      match reorganize env host pindexBest pindexIntermediate s.txnBegin with
      | .error _ _ => true
      | .ok _ t => connectsAll env host vpindexSecondary.reverse t

structure Fresh (s : State) : Prop where
  pindexGenesisBlock : s.pindexGenesisBlock = none
  pindexBest : s.pindexBest = none
  hashBestChain : s.hashBestChain = 0
  pnext : s.pnext = fun _ => none
  txindex : ∀ h, s.txdb.committed (.tx h) = none

/-- What the node does between calls: it leaves the chain, the record of the best block and
the transaction index alone. -/
structure Aside (s t : State) : Prop where
  pnext : t.pnext = s.pnext
  pindexGenesisBlock : t.pindexGenesisBlock = s.pindexGenesisBlock
  pindexBest : t.pindexBest = s.pindexBest
  hashBestChain : t.hashBestChain = s.hashBestChain
  best : t.txdb.committed .hashBestChain = s.txdb.committed .hashBestChain
  txindex : ∀ h, t.txdb.committed (.tx h) = s.txdb.committed (.tx h)

/-- The states reached by calls on indexed blocks, in any order, failed ones included, of
which every successful one could connect what it postponed. -/
inductive Reached {env : Env} (T : BlockTree env) : State → Prop
  | fresh {s : State} (h : Fresh s) : Reached T s
  | succeeded {s t : State} {host : Host} {p : CBlockIndex} (hs : Reached T s) (hp : T.mem p)
      (h : setBestChain env host (T.block p) p s = .ok () t)
      (hpostponed : postponedConnect env host (T.block p) p s = true) : Reached T t
  | failed {s t : State} {host : Host} {p : CBlockIndex} {e : Reject} (hs : Reached T s)
      (h : setBestChain env host (T.block p) p s = .error e t) : Reached T t
  | aside {s t : State} (hs : Reached T s) (h : Aside s t) : Reached T t

section Specs

variable {env : Env} {host : Host}

def afterSwitch (env : Env) (s : State) (hash : uint256) (vDisconnect vConnect : List CBlockIndex)
    (vResurrect vDelete : List CTransaction) : State :=
  let s := { s with txdb := (s.txdb.writeHashBestChain hash).commit }
  let s := vConnect.foldl State.link (vDisconnect.foldl State.unlink s)
  { s with mempool := updatePool env vResurrect vDelete s.mempool }

theorem afterSwitch_txdb (s : State) (hash : uint256) (vDisconnect vConnect : List CBlockIndex)
    (vResurrect vDelete : List CTransaction) :
    (afterSwitch env s hash vDisconnect vConnect vResurrect vDelete).txdb =
      (s.txdb.writeHashBestChain hash).commit := by
  simp only [afterSwitch, foldl_link_txdb, foldl_unlink_txdb]

theorem reorganize_ok {pindexBest pindexNew : CBlockIndex} {s t : State}
    (h : reorganize env host pindexBest pindexNew s = .ok () t) :
    ∃ pfork vResurrect vDelete s₁ s₂, pindexBest.findFork pindexNew = .ok pfork ∧
      (downTo pfork pindexBest).foldlM (disconnectRound env host) [] s = .ok vResurrect s₁ ∧
      (downTo pfork pindexNew).reverse.foldlM (connectRound env host) [] s₁ = .ok vDelete s₂ ∧
      t = afterSwitch env s₂ pindexNew.getBlockHash (downTo pfork pindexBest)
        (downTo pfork pindexNew).reverse vResurrect vDelete := by
  unfold reorganize at h
  obtain ⟨pfork, s₀, hf, h⟩ := run_bind_ok.mp h
  obtain ⟨hfork, rfl⟩ := lift_ok.mp hf
  obtain ⟨⟨vResurrect, vDelete⟩, s₃, hs, h⟩ := run_bind_ok.mp h
  unfold switchBranch at hs
  obtain ⟨v, s₁, hd, hs⟩ := run_bind_ok.mp hs
  obtain ⟨w, s₂, hc, hs⟩ := run_bind_ok.mp hs
  obtain ⟨_, s₄, hw, hs⟩ := run_bind_ok.mp hs
  cases hw
  obtain ⟨_, s₅, hcommit, hs⟩ := run_bind_ok.mp hs
  cases hs
  have hcommitted := txnCommit_ok (named_ok.mp hcommit)
  cases h
  refine ⟨pfork, vResurrect, vDelete, s₁, s₂, hfork, hd, hc, ?_⟩
  rw [hcommitted]
  rfl

def afterExtend (env : Env) (s : State) (block : CBlock) (pindexNew : CBlockIndex) : State :=
  let s := { s with txdb := (s.txdb.writeHashBestChain (block.getHash env)).commit }
  let s := s.link pindexNew
  { s with mempool := block.vtx.foldl (fun pool tx => pool.remove env tx) s.mempool }

theorem setBestChainInner_ok {block : CBlock} {pindexNew : CBlockIndex} {s t : State}
    (h : setBestChainInner env host block pindexNew s = .ok () t) :
    ∃ s₁, connectBlock env host block pindexNew false s = .ok () s₁ ∧
      t = afterExtend env s₁ block pindexNew := by
  unfold setBestChainInner at h
  split at h
  · cases h
  · rename_i t' hx
    obtain ⟨_, s₁, hc, hw⟩ := run_bind_ok.mp hx
    cases hw
    obtain ⟨_, s₂, hcommit, h⟩ := run_bind_ok.mp h
    have hcommitted := txnCommit_ok (named_ok.mp hcommit)
    cases h
    refine ⟨s₁, hc, ?_⟩
    rw [hcommitted]
    rfl

theorem committed_writeHashBestChain (db : CTxDB) (hash : uint256) :
    (db.writeHashBestChain hash).commit.committed .hashBestChain = some hash := by
  rw [Db.committed_commit]
  unfold CTxDB.writeHashBestChain
  rw [Db.view_write, Function.update_self]

/-- What is read for an index entry has the entry's hash. -/
theorem readBlockOf_hash {pindex : CBlockIndex} {block : CBlock}
    (h : readBlockOf env host pindex = .ok block) : block.getHash env = pindex.getBlockHash := by
  unfold readBlockOf at h
  split at h
  · cases h
  · simp only [readFromDisk, bind_ok, check_ok, pure_ok, beq_iff_eq] at h
    obtain ⟨b, _, _, hhash, rfl⟩ := h
    exact hhash

/-! The loops over a branch: what each block carries on, the loop carries from one end of the
branch to the other. -/

theorem connect_climb_keeps {P : CBlockIndex → State → Prop} {a b : CBlockIndex}
    {l : List CBlockIndex} (hl : Climb a l b)
    (hstep : ∀ {f q block s t}, child f q ∈ l → readBlockOf env host (.child f q) = .ok block →
      connectBlock env host block (.child f q) false s = .ok () t → P q s → P (.child f q) t) :
    ∀ {v r : List CTransaction} {s t : State}, P a s →
      l.foldlM (connectRound env host) v s = .ok r t → P b t := by
  induction hl with
  | here =>
    intro v r s t hs h
    cases h
    exact hs
  | up _ ih =>
    intro v r s t hs h
    obtain ⟨v₁, s₁, h₁, h⟩ := run_bind_ok.mp h
    obtain ⟨block, hread, hconn, _⟩ := round_ok.mp h₁
    exact ih (fun hmem => hstep (List.mem_cons_of_mem _ hmem))
      (hstep List.mem_cons_self hread hconn hs) h

theorem disconnect_climb_keeps {P : CBlockIndex → State → Prop} {a b : CBlockIndex}
    {l : List CBlockIndex} (hl : Climb a l b)
    (hstep : ∀ {f q block s t}, child f q ∈ l → readBlockOf env host (.child f q) = .ok block →
      disconnectBlock env block (.child f q) s = .ok () t → P (.child f q) s → P q t) :
    ∀ {v r : List CTransaction} {s t : State}, P b s →
      l.reverse.foldlM (disconnectRound env host) v s = .ok r t → P a t := by
  induction hl with
  | here =>
    intro v r s t hs h
    cases h
    exact hs
  | up _ ih =>
    intro v r s t hs h
    rw [List.reverse_cons, List.foldlM_append] at h
    obtain ⟨v₁, s₁, h₁, h⟩ := run_bind_ok.mp h
    have hs₁ := ih (fun hmem => hstep (List.mem_cons_of_mem _ hmem)) hs h₁
    obtain ⟨v₂, s₂, h₂, h⟩ := run_bind_ok.mp h
    cases h
    obtain ⟨block, hread, hdis, _⟩ := round_ok.mp h₂
    exact hstep List.mem_cons_self hread hdis hs₁

theorem connectFurther_climb_keeps {P : CBlockIndex → State → Prop} {a b : CBlockIndex}
    {l : List CBlockIndex} (hl : Climb a l b)
    (hstep : ∀ {f q block s t}, child f q ∈ l → readBlockOf env host (.child f q) = .ok block →
      setBestChainInner env host block (.child f q) s.txnBegin = .ok () t → P q s →
      P (.child f q) t) :
    ∀ {s : State}, P a s → connectsAll env host l s = true → P b (connectFurther env host l s) := by
  induction hl with
  | here => exact fun hs _ => hs
  | @up a b f l _ ih =>
    intro s hs hall
    rw [connectsAll] at hall
    rw [connectFurther]
    cases hread : readBlockOf env host (.child f a) with
    | error e => simp [hread] at hall
    | ok block =>
      cases hi : setBestChainInner env host block (.child f a) s.txnBegin with
      | error e t => simp [hread, hi] at hall
      | ok u t =>
        simp only [hread, hi] at hall ⊢
        exact ih (fun hmem => hstep (List.mem_cons_of_mem _ hmem))
          (hstep List.mem_cons_self hread hi hs) hall

end Specs

/-- Links and disk record are those of the chain that ends in `m`. -/
structure AtChain (s : State) (m : CBlockIndex) : Prop where
  linked : LinkedTo s.pnext m
  disk : s.txdb.committed .hashBestChain = some m.getBlockHash

section Moves

variable {env : Env} {host : Host}

theorem setBestChainInner_at {block : CBlock} {a : CBlockIndex} {f : BlockFields} {s t : State}
    (ha : AtChain s a) (hhash : block.getHash env = (CBlockIndex.child f a).getBlockHash)
    (h : setBestChainInner env host block (.child f a) s = .ok () t) :
    AtChain t (.child f a) ∧ t.pindexGenesisBlock = s.pindexGenesisBlock := by
  obtain ⟨s₁, hc, rfl⟩ := setBestChainInner_ok h
  have hp := (connectBlock_pending block (.child f a) false).ok hc
  refine ⟨⟨?_, ?_⟩, hp.pindexGenesisBlock⟩
  · change LinkedTo (Function.update s₁.pnext a (some (.child f a))) (.child f a)
    rw [hp.pnext]
    exact ha.linked.up f
  · rw [← hhash]
    exact committed_writeHashBestChain s₁.txdb _

/-- The loop over the postponed blocks stops at some block of the new chain, and at its end
exactly when every block connects. -/
theorem connectFurther_at (env : Env) (host : Host) {a q : CBlockIndex} {l : List CBlockIndex} (hl : Climb a l q) :
    ∀ {s : State}, AtChain s a → ∃ m ∈ q.ancestors, AtChain (connectFurther env host l s) m ∧
      (m = q ↔ connectsAll env host l s = true) ∧
      (connectFurther env host l s).pindexGenesisBlock = s.pindexGenesisBlock := by
  induction hl with
  | here => exact fun ha => ⟨_, self_mem_ancestors _, ha, by simp [connectsAll], rfl⟩
  | @up a q f l hclimb ih =>
    intro s ha
    -- if the loop stops here, it stops below the new block
    have hbelow : a ≠ q := by
      rintro rfl
      exact child_not_ancestor hclimb.mem
    have hmem : a ∈ q.ancestors :=
      ancestors_trans hclimb.mem (List.mem_cons_of_mem _ (self_mem_ancestors a))
    rw [connectFurther, connectsAll]
    cases hread : readBlockOf env host (.child f a) with
    | error e => exact ⟨a, hmem, ha, by simp [hbelow], rfl⟩
    | ok block =>
      cases hi : setBestChainInner env host block (.child f a) s.txnBegin with
      | error e t =>
        simp only [hi]
        have hu := setBestChainInner_error rfl hi
        refine ⟨a, hmem, ⟨?_, ?_⟩, by simp [hbelow], hu.pindexGenesisBlock⟩
        · rw [hu.pnext]
          exact ha.linked
        · rw [hu.committed .hashBestChain (by simp)]
          exact ha.disk
      | ok u t =>
        simp only [hi]
        obtain ⟨hat, hgen⟩ := setBestChainInner_at (s := s.txnBegin) ⟨ha.linked, ha.disk⟩
          (readBlockOf_hash hread) hi
        obtain ⟨m, hm, hatm, hiff, hgenm⟩ := ih hat
        exact ⟨m, hm, hatm, hiff, hgenm.trans hgen⟩

theorem reorganize_at {b m : CBlockIndex} {s t : State} (hl : LinkedTo s.pnext b)
    (h : reorganize env host b m s = .ok () t) :
    AtChain t m ∧ t.pindexGenesisBlock = s.pindexGenesisBlock := by
  obtain ⟨pfork, vResurrect, vDelete, s₁, s₂, hfork, hd, hc, rfl⟩ := reorganize_ok h
  obtain ⟨hb, hm⟩ := findFork_mem hfork
  have hp := ((Keeps.foldlM Pending.refl Pending.trans disconnectRound_pending _ _).ok hd).trans
    _ _ _ ((Keeps.foldlM Pending.refl Pending.trans connectRound_pending _ _).ok hc)
  let s₃ : State := { s₂ with txdb := (s₂.txdb.writeHashBestChain m.getBlockHash).commit }
  have hl₃ : LinkedTo s₃.pnext b := by
    change LinkedTo s₂.pnext b
    rw [hp.pnext]
    exact hl
  have hdown := unlink_climb (climb_downTo hb) hl₃
  rw [List.reverse_reverse] at hdown
  have hup := link_climb (climb_downTo hm) hdown.1
  refine ⟨⟨hup.1, ?_⟩, ?_⟩
  · rw [afterSwitch_txdb]
    exact committed_writeHashBestChain s₂.txdb _
  · change ((downTo pfork m).reverse.foldl State.link
      ((downTo pfork b).foldl State.unlink s₃)).pindexGenesisBlock = _
    rw [hup.2, hdown.2]
    exact hp.pindexGenesisBlock

end Moves

section Runs

variable {env : Env} {host : Host} {T : BlockTree env}

/-- The node has a best block, and links, disk and memory agree on it. -/
def Settled (T : BlockTree env) (s : State) : Prop :=
  ∃ p, s.pindexBest = some p ∧ T.mem p ∧ s.hashBestChain = p.getBlockHash ∧
    s.pindexGenesisBlock ≠ none ∧ AtChain s p

structure Unstarted (s : State) : Prop where
  pindexGenesisBlock : s.pindexGenesisBlock = none
  pindexBest : s.pindexBest = none
  hashBestChain : s.hashBestChain = 0
  pnext : s.pnext = fun _ => none

/-- The three ways in which a successful `moveBestChain` gets from `s` to `t`. Only the last
one postpones blocks. -/
inductive Moved (host : Host) (T : BlockTree env) (p : CBlockIndex) (s t : State) : Prop
  | started (f : BlockFields) (hp : p = .genesis f) (hun : Unstarted s)
      (hpostponed : postponedConnect env host (T.block p) p s = true)
      (ht : t = { s with
        txdb := (s.txnBegin.txdb.writeHashBestChain p.getBlockHash).commit
        pindexGenesisBlock := some p })
  | extended (f : BlockFields) (q : CBlockIndex) (hp : p = .child f q)
      (hbest : s.pindexBest = some q)
      (hpostponed : postponedConnect env host (T.block p) p s = true)
      (h : setBestChainInner env host (T.block p) p s.txnBegin = .ok () t)
  | switched (b : CBlockIndex) (r : State) (hbest : s.pindexBest = some b)
      (hpostponed : postponedConnect env host (T.block p) p s =
        connectsAll env host (p.postpone b.nChainTrust).2.reverse r)
      (h : reorganize env host b (p.postpone b.nChainTrust).1 s.txnBegin = .ok () r)
      (ht : t = connectFurther env host (p.postpone b.nChainTrust).2.reverse r)

theorem moveBestChain_moved {p : CBlockIndex} {s t : State} (hp : T.mem p)
    (hs : Unstarted s ∨ Settled T s)
    (h : moveBestChain env host (T.block p) p s.txnBegin = .ok () t) : Moved host T p s t := by
  cases moveBestChain_ok h with
  | start hfirst ht =>
    have hpostponed : postponedConnect env host (T.block p) p s = true := if_pos hfirst
    rw [T.block_hash hp] at hfirst ht
    obtain ⟨f, rfl⟩ := (T.genesis_hash hp).mp hfirst.2
    have hun : Unstarted s := by
      rcases hs with hun | ⟨_, _, _, _, hne, _⟩
      · exact hun
      · exact absurd hfirst.1 hne
    exact .started f rfl hun hpostponed ht
  | extend hfirst hext hinner =>
    have hpostponed : postponedConnect env host (T.block p) p s = true := by
      rw [postponedConnect, if_neg hfirst, if_pos hext]
    rw [T.block_prev hp] at hext
    rcases hs with hun | ⟨b, hb, hbmem, hbhash, hne, hat⟩
    · rw [hun.hashBestChain] at hext
      cases p with
      | genesis f =>
        have hg := (T.genesis_hash hp).mpr ⟨f, rfl⟩
        exact absurd ⟨hun.pindexGenesisBlock, (T.block_hash hp).trans hg⟩ hfirst
      | child f q => exact absurd hext (T.hash_ne_zero (T.parent_mem hp))
    · rw [hbhash] at hext
      cases p with
      | genesis f => exact absurd hext.symm (T.hash_ne_zero hbmem)
      | child f q =>
        obtain rfl := T.hash_inj (T.parent_mem hp) hbmem hext
        exact .extended f q rfl hb hpostponed hinner
  | switch hfirst hext b r hb hr ht =>
    refine .switched b r hb ?_ hr ht
    rw [postponedConnect, if_neg hfirst, if_neg hext, hb]
    simp only [hr]

/-- Where a successful call leaves the links and the disk record: at the new block exactly
when it could connect what it postponed. -/
theorem moveBestChain_at {p : CBlockIndex} {s t : State} (hp : T.mem p)
    (hs : Unstarted s ∨ Settled T s)
    (h : moveBestChain env host (T.block p) p s.txnBegin = .ok () t) :
    ∃ m ∈ p.ancestors, AtChain t m ∧
      (m = p ↔ postponedConnect env host (T.block p) p s = true) ∧
      t.pindexGenesisBlock ≠ none := by
  -- a best block comes with its links and a first block
  have hsettled : ∀ b, s.pindexBest = some b → AtChain s b ∧ s.pindexGenesisBlock ≠ none := by
    intro b hb
    rcases hs with hun | ⟨q, hq, _, _, hne, hat⟩
    · rw [hun.pindexBest] at hb
      cases hb
    · rw [hq] at hb
      cases hb
      exact ⟨hat, hne⟩
  cases moveBestChain_moved hp hs h with
  | started f hf hun hpostponed ht =>
    subst hf ht
    refine ⟨_, self_mem_ancestors _, ⟨?_, committed_writeHashBestChain _ _⟩, by simp [hpostponed],
      by simp⟩
    change LinkedTo s.pnext (.genesis f)
    rw [hun.pnext]
    exact linkedTo_genesis f
  | extended f q hf hbest hpostponed hinner =>
    subst hf
    obtain ⟨hat, hne⟩ := hsettled q hbest
    obtain ⟨hatp, hgen⟩ := setBestChainInner_at (s := s.txnBegin) ⟨hat.linked, hat.disk⟩
      (T.block_hash hp) hinner
    exact ⟨_, self_mem_ancestors _, hatp, by simp [hpostponed], by rwa [hgen]⟩
  | switched b r hbest hpostponed hr ht =>
    obtain ⟨hat, hne⟩ := hsettled b hbest
    obtain ⟨hatr, hgen⟩ := reorganize_at (s := s.txnBegin) hat.linked hr
    obtain ⟨m, hm, hatm, hiff, hgenm⟩ :=
      connectFurther_at env host (postpone_climb b.nChainTrust p) hatr
    rw [← ht] at hatm hgenm
    exact ⟨m, hm, hatm, by rw [hpostponed]; exact hiff, by rwa [hgenm, hgen]⟩

/-- A settled state is coherent. -/
theorem Settled.coherent {s : State} (h : Settled T s) : Coherent s := by
  obtain ⟨p, hp, _, hhash, _, hat⟩ := h
  have hmain : ∀ b, s.isInMainChain b = true ↔ b ∈ p.ancestors := by
    intro b
    simp only [State.isInMainChain, hp, Bool.or_eq_true, Option.isSome_iff_exists, beq_iff_eq,
      Option.some.injEq]
    constructor
    · rintro (⟨n, hn⟩ | rfl)
      · obtain ⟨hm, hprev⟩ := (hat.linked b n).mp hn
        obtain ⟨f, rfl⟩ := CBlockIndex.pprev_eq_some hprev
        exact ancestors_trans hm (List.mem_cons_of_mem _ (self_mem_ancestors b))
      · exact self_mem_ancestors p
    · intro hb
      by_cases he : p = b
      · exact .inr he
      · obtain ⟨n, hn, hprev⟩ := exists_next hb he
        exact .inl ⟨n, (hat.linked b n).mpr ⟨hn, hprev⟩⟩
  refine ⟨by rw [hhash]; exact hat.disk, ⟨p, hp, hhash.symm⟩, ?_, ?_⟩
  · intro b
    rw [hmain b]
    constructor
    · exact fun hb => ⟨p, hp, hb⟩
    · intro h
      obtain ⟨q, hq, hb⟩ := h
      rw [hp] at hq
      cases hq
      exact hb
  · intro b hb hne
    have he : p ≠ b := fun he => hne (by rw [hp, he])
    obtain ⟨n, hn, hprev⟩ := exists_next ((hmain b).mp hb) he
    exact ⟨n, (hat.linked b n).mpr ⟨hn, hprev⟩, hprev⟩

/-- A successful call that connects what it postpones settles the node on the new block;
one that does not leaves the disk behind the memory. -/
theorem setBestChain_settles {p : CBlockIndex} {s t : State} (hp : T.mem p)
    (hs : Unstarted s ∨ Settled T s) (h : setBestChain env host (T.block p) p s = .ok () t) :
    (postponedConnect env host (T.block p) p s = true → Settled T t) ∧
      (Coherent t → postponedConnect env host (T.block p) p s = true) := by
  obtain ⟨r, hmove, rfl⟩ := setBestChain_ok h
  obtain ⟨m, hm, hat, hiff, hgen⟩ := moveBestChain_at hp hs hmove
  constructor
  · intro hpostponed
    obtain rfl := hiff.mpr hpostponed
    exact ⟨m, rfl, hp, T.block_hash hp, hgen, ⟨hat.linked, hat.disk⟩⟩
  · intro hc
    apply hiff.mp
    have hdisk : some m.getBlockHash = some ((T.block p).getHash env) := hat.disk.symm.trans hc.disk
    apply T.hash_inj (T.ancestor_mem hp hm) hp
    rw [← T.block_hash hp]
    exact Option.some.inj hdisk

theorem Unstarted.congr {s t : State} (h : Unstarted s) (hpnext : t.pnext = s.pnext)
    (hgen : t.pindexGenesisBlock = s.pindexGenesisBlock) (hbest : t.pindexBest = s.pindexBest)
    (hhash : t.hashBestChain = s.hashBestChain) : Unstarted t :=
  ⟨hgen.trans h.pindexGenesisBlock, hbest.trans h.pindexBest, hhash.trans h.hashBestChain,
    hpnext.trans h.pnext⟩

theorem Settled.congr {s t : State} (h : Settled T s) (hpnext : t.pnext = s.pnext)
    (hgen : t.pindexGenesisBlock = s.pindexGenesisBlock) (hbest : t.pindexBest = s.pindexBest)
    (hhash : t.hashBestChain = s.hashBestChain)
    (hdisk : t.txdb.committed .hashBestChain = s.txdb.committed .hashBestChain) :
    Settled T t := by
  obtain ⟨p, hp, hmem, hph, hne, hat⟩ := h
  exact ⟨p, hbest.trans hp, hmem, hhash.trans hph, by rwa [hgen],
    ⟨by rw [hpnext]; exact hat.linked, hdisk.trans hat.disk⟩⟩

/-- Every state reached is settled, once there is a best block. -/
theorem Reached.settled {s : State} (h : Reached T s) : Unstarted s ∨ Settled T s := by
  induction h with
  | fresh h => exact .inl ⟨h.pindexGenesisBlock, h.pindexBest, h.hashBestChain, h.pnext⟩
  | succeeded _ hp h hpostponed ih => exact .inr ((setBestChain_settles hp ih h).1 hpostponed)
  | failed _ h ih =>
    have hu := setBestChain_error_untouched h
    rcases ih with hun | hset
    · exact .inl (hun.congr hu.pnext hu.pindexGenesisBlock hu.pindexBest hu.hashBestChain)
    · exact .inr (hset.congr hu.pnext hu.pindexGenesisBlock hu.pindexBest hu.hashBestChain
        (hu.committed _ (by simp)))
  | aside _ h ih =>
    rcases ih with hun | hset
    · exact .inl (hun.congr h.pnext h.pindexGenesisBlock h.pindexBest h.hashBestChain)
    · exact .inr (hset.congr h.pnext h.pindexGenesisBlock h.pindexBest h.hashBestChain h.best)

/-- A call that returns true leaves memory, disk and links coherent exactly when it could
connect every block it had postponed. The run up to it met that condition. -/
theorem coherent_iff_postponed_connect {p : CBlockIndex} {s t : State} (hs : Reached T s)
    (hp : T.mem p) (h : setBestChain env host (T.block p) p s = .ok () t) :
    Coherent t ↔ postponedConnect env host (T.block p) p s = true := by
  obtain ⟨hsettles, hnot⟩ := setBestChain_settles hp hs.settled h
  exact ⟨hnot, fun hpostponed => (hsettles hpostponed).coherent⟩

end Runs

namespace Sample

/-! A chain of one block, a heavier block beside it, and two blocks on top of that one: the
first spends an output that does not exist, the second is valid. -/

def genesisBlock : CBlock := blockOf 0 0 [coinbase 0 0]

def heavyIndex : CBlockIndex := .child (fieldsOf 40 40 800 3) genesisIndex

def badBlock : CBlock := blockOf 40 50 [coinbase 49 0 2, transfer 48 [⟨999, 0⟩] [1000]]

def badIndex : CBlockIndex := .child (fieldsOf 50 50 1200 4) heavyIndex

def goodBlock : CBlock := blockOf 40 60 [coinbase 59 COIN 2]

def goodIndex : CBlockIndex := .child (fieldsOf 60 60 1600 4) heavyIndex

def blocks : List (CBlockIndex × CBlock) :=
  [(genesisIndex, genesisBlock), (mainIndex, mainBlock), (heavyIndex, sideBlock),
    (badIndex, badBlock), (goodIndex, goodBlock)]

def treeEnv : Env := env blocks

def blockAt (p : CBlockIndex) : CBlock := (blocks.lookup p).getD genesisBlock

def tree : BlockTree treeEnv where
  mem p := p ∈ blocks.map Prod.fst
  block := blockAt
  parent_mem {f p} h := by
    have hall : ∀ a ∈ blocks.map Prod.fst,
        a.pprev.all (fun p => decide (p ∈ blocks.map Prod.fst)) = true := by decide
    simpa [CBlockIndex.pprev] using hall _ h
  hash_inj {a b} ha hb := by
    have hall : ∀ a ∈ blocks.map Prod.fst, ∀ b ∈ blocks.map Prod.fst,
        a.getBlockHash = b.getBlockHash → a = b := by decide
    exact hall a ha b hb
  hash_ne_zero {a} ha := by
    have hall : ∀ a ∈ blocks.map Prod.fst, a.getBlockHash ≠ 0 := by decide
    exact hall a ha
  genesis_hash {a} ha := by
    have hall : ∀ a ∈ blocks.map Prod.fst,
        (a.getBlockHash = hashGenesisBlock ↔ a.pprev = none) := by decide
    rw [hall a ha]
    cases a <;> simp [CBlockIndex.pprev]
  block_hash {a} ha := by
    have hall : ∀ a ∈ blocks.map Prod.fst,
        (blockAt a).getHash treeEnv = a.getBlockHash := by decide
    exact hall a ha
  block_prev {a} ha := by
    have hall : ∀ a ∈ blocks.map Prod.fst,
        (blockAt a).hashPrevBlock = (a.pprev.map CBlockIndex.getBlockHash).getD 0 := by decide
    exact hall a ha

instance (p : CBlockIndex) : Decidable (tree.mem p) :=
  inferInstanceAs (Decidable (p ∈ blocks.map Prod.fst))

def blank : State :=
  { nodeWith (fun _ => none) with
    txdb := ⟨fun _ => none, none⟩
    pindexGenesisBlock := none
    pindexBest := none
    hashBestChain := 0 }

def call (p : CBlockIndex) (s : State) : State :=
  leaves (setBestChain treeEnv host (tree.block p) p) s

def started : State := call mainIndex (call genesisIndex blank)

theorem blank_fresh : Fresh blank := ⟨rfl, rfl, rfl, rfl, fun _ => rfl⟩

theorem call_reached {p : CBlockIndex} {s : State} (hs : Reached tree s) (hp : tree.mem p)
    (hok : fails (setBestChain treeEnv host (tree.block p) p) s = false)
    (hpostponed : postponedConnect treeEnv host (tree.block p) p s = true) :
    Reached tree (call p s) := by
  obtain ⟨_, h⟩ := ok_of_not_fails hok
  exact hs.succeeded hp h hpostponed

theorem started_reached : Reached tree started :=
  call_reached (call_reached (.fresh blank_fresh) (by decide) (by decide)
    (by decide)) (by decide) (by decide) (by decide)

end Sample

theorem goodBlock_coherent :
    ∃ t, setBestChain Sample.treeEnv Sample.host (Sample.tree.block Sample.goodIndex)
        Sample.goodIndex Sample.started = .ok () t ∧ Coherent t := by
  obtain ⟨_, h⟩ := ok_of_not_fails (x := setBestChain Sample.treeEnv Sample.host
    (Sample.tree.block Sample.goodIndex) Sample.goodIndex) (s := Sample.started)
    (by decide)
  exact ⟨_, h, (coherent_iff_postponed_connect Sample.started_reached (by decide) h).mpr
    (by decide)⟩

/-- The postponed block fails: the call returns true, memory names it as the best block and
the disk names its parent. -/
theorem badBlock_incoherent :
    ∃ t, Reached Sample.tree Sample.started ∧
      setBestChain Sample.treeEnv Sample.host (Sample.tree.block Sample.badIndex)
        Sample.badIndex Sample.started = .ok () t ∧ ¬ Coherent t := by
  obtain ⟨_, h⟩ := ok_of_not_fails (x := setBestChain Sample.treeEnv Sample.host
    (Sample.tree.block Sample.badIndex) Sample.badIndex) (s := Sample.started) (by decide)
  refine ⟨_, Sample.started_reached, h, fun hc => ?_⟩
  have hdisk : ((Sample.call Sample.badIndex Sample.started).txdb.committed .hashBestChain :
      Option uint256) = some (Sample.call Sample.badIndex Sample.started).hashBestChain := hc.disk
  exact absurd hdisk (by decide)

end Triangles
