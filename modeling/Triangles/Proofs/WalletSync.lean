import Triangles.Proofs.Frame

/-! What registered wallets see of a chain switch that fails. -/

namespace Triangles

open Outcome Batch

structure Move where
  block : CBlock
  fConnect : Bool

def Move.sync (env : Env) (wallets : List CWallet) (m : Move) : List CWallet :=
  syncWithWallets env m.block m.fConnect m.fConnect wallets

def replay (env : Env) (ms : List Move) (wallets : List CWallet) : List CWallet :=
  ms.foldl (Move.sync env) wallets

abbrev Planned := Bool × Except Reject CBlock

def Move.entry (m : Move) : Planned := (m.fConnect, .ok m.block)

def readAll (env : Env) (host : Host) (fConnect : Bool) (l : List CBlockIndex) : List Planned :=
  l.map fun pindex => (fConnect, readBlockOf env host pindex)

/-- The blocks that a call would disconnect and connect inside one database transaction. -/
def plannedMoves (env : Env) (host : Host) (block : CBlock) (pindexNew : CBlockIndex) (s : State) :
    List Planned :=
  if s.pindexGenesisBlock = none ∧ block.getHash env = hashGenesisBlock then []
  else if block.hashPrevBlock = s.hashBestChain then [(true, .ok block)]
  else
    match s.pindexBest with
    | none => []
    | some pindexBest =>
      let pindexIntermediate := (pindexNew.postpone pindexBest.nChainTrust).1
      match pindexBest.findFork pindexIntermediate with
      | .error _ => []
      | .ok pfork =>
        readAll env host false (CBlockIndex.downTo pfork pindexBest) ++
          readAll env host true (CBlockIndex.downTo pfork pindexIntermediate).reverse

namespace CWallet

/-- What `SyncWithWallets` looks for: a connected transaction is recorded, pays the wallet or takes an
output of it; a disconnected one is a coinstake of the wallet. -/
def concernedBy (env : Env) (w : CWallet) (fConnect : Bool) (tx : CTransaction) : Bool :=
  if fConnect then
    (w.mapWallet (tx.getHash env)).isSome || w.isMineTx tx ||
      tx.vin.any fun txin => (w.ownPrevout txin).isSome
  else tx.isCoinStake && w.isFromMe tx

end CWallet

/-- Where no commit fails, the last of the planned blocks is not reached by a call that fails. -/
def AtRisk (host : Host) (plan : List Planned) (m : Planned) : Prop :=
  m ∈ plan ∧ ((∀ db, host.commitFails db = false) → m ∈ plan.dropLast)

/-- No transaction of a planned block that a failing call may reach concerns a registered wallet. -/
def Unconcerned (env : Env) (host : Host) (block : CBlock) (pindexNew : CBlockIndex) (s : State) : Prop :=
  ∀ fConnect b, AtRisk host (plannedMoves env host block pindexNew s) (fConnect, .ok b) →
    ∀ tx ∈ b.vtx, ∀ w ∈ s.wallets, w.concernedBy env fConnect tx = false

section Replay

variable {env : Env} {host : Host}

theorem replay_append (ms ms' : List Move) (wallets : List CWallet) :
    replay env (ms ++ ms') wallets = replay env ms' (replay env ms wallets) := by
  simp [replay]

/-- A transaction that does not concern the wallet does not change it. -/
theorem syncTransaction_unconcerned {w : CWallet} {block : CBlock} {fUpdate fConnect : Bool}
    {tx : CTransaction} (h : w.concernedBy env fConnect tx = false) :
    w.syncTransaction env block fUpdate fConnect tx = w := by
  unfold CWallet.concernedBy at h
  cases fConnect with
  | true =>
    simp only [↓reduceIte, Bool.or_eq_false_iff, List.any_eq_false, Bool.not_eq_true,
      Option.isSome_eq_false_iff, Option.isNone_iff_eq_none] at h
    obtain ⟨⟨hnew, hmine⟩, hprev⟩ := h
    have hdebit : w.getDebit tx = 0 := by
      refine List.sum_eq_zero fun n hn => ?_
      obtain ⟨txin, hin, rfl⟩ := List.mem_map.mp hn
      rw [hprev txin hin]
      rfl
    have hspend : ∀ l ⊆ tx.vin, l.foldl CWallet.spendPrevout w = w := by
      intro l hl
      induction l with
      | nil => rfl
      | cons txin l ih =>
        have hnone := hprev txin (hl List.mem_cons_self)
        have hsame : w.spendPrevout txin = w := by
          unfold CWallet.spendPrevout
          split
          · rfl
          · simp [hnone]
        rw [List.foldl_cons, hsame]
        exact ih fun x hx => hl (List.mem_cons_of_mem _ hx)
    have hfrom : w.isFromMe tx = false := by simp [CWallet.isFromMe, hdebit]
    simp only [CWallet.syncTransaction, CWallet.addToWalletIfInvolvingMe, hnew, hmine, hfrom,
      CWallet.walletUpdateSpent, hspend tx.vin (List.Subset.refl _), ↓reduceIte, Option.isSome_none,
      Bool.false_and, Bool.or_false, Bool.false_eq_true]
  | false =>
    simp only [Bool.false_eq_true, ↓reduceIte] at h
    simp only [CWallet.syncTransaction, h, Bool.false_eq_true, ↓reduceIte]

theorem syncWithWallets_unconcerned {block : CBlock} {fUpdate fConnect : Bool} {wallets : List CWallet}
    (h : ∀ tx ∈ block.vtx, ∀ w ∈ wallets, w.concernedBy env fConnect tx = false) :
    syncWithWallets env block fUpdate fConnect wallets = wallets := by
  refine (List.map_congr_left fun w hw => ?_).trans (List.map_id wallets)
  have hall : ∀ l ⊆ block.vtx, l.foldl (CWallet.syncTransaction env block fUpdate fConnect) w = w := by
    intro l hl
    induction l with
    | nil => rfl
    | cons tx l ih =>
      rw [List.foldl_cons, syncTransaction_unconcerned (h tx (hl List.mem_cons_self) w hw)]
      exact ih fun x hx => hl (List.mem_cons_of_mem _ hx)
  exact hall block.vtx (List.Subset.refl _)

theorem replay_unconcerned {ms : List Move} {wallets : List CWallet}
    (h : ∀ m ∈ ms, ∀ tx ∈ m.block.vtx, ∀ w ∈ wallets, w.concernedBy env m.fConnect tx = false) :
    replay env ms wallets = wallets := by
  induction ms with
  | nil => rfl
  | cons m ms ih =>
    have hfirst : Move.sync env wallets m = wallets :=
      syncWithWallets_unconcerned (h m List.mem_cons_self)
    rw [replay, List.foldl_cons, hfirst]
    exact ih fun m' hm' => h m' (List.mem_cons_of_mem m hm')

theorem connectBlock_wallets {block : CBlock} {pindex : CBlockIndex} {s t : State}
    (h : connectBlock env host block pindex false s = .ok () t) :
    t.wallets = Move.sync env s.wallets ⟨block, true⟩ := by
  obtain ⟨acc, _, rfl, _⟩ := Ledger.connectBlock_spec h
  simp only [State.afterConnect, Bool.false_eq_true, ↓reduceIte, State.writePrevIndex,
    Move.sync]
  cases pindex.pprev <;> rfl

theorem connectBlock_error {block : CBlock} {pindex : CBlockIndex} {s t : State} {e : Reject}
    (h : connectBlock env host block pindex false s = .error e t) : t = s := by
  unfold connectBlock at h
  split at h
  · cases h
    rfl
  · cases h

theorem disconnectBlock_wallets {block : CBlock} {pindex : CBlockIndex} {s t : State}
    (h : disconnectBlock env block pindex s = .ok () t) :
    t.wallets = Move.sync env s.wallets ⟨block, false⟩ := by
  rw [(Ledger.disconnectBlock_spec h).2.2]
  rfl

/-- A failed `DisconnectBlock` has not reached the wallets. -/
theorem disconnectBlock_error {block : CBlock} {pindex : CBlockIndex} {s t : State} {e : Reject}
    (h : disconnectBlock env block pindex s = .error e t) : t.wallets = s.wallets := by
  unfold disconnectBlock at h
  rcases run_bind_error.mp h with hd | ⟨_, s₁, _, h⟩
  · unfold onTxDb at hd
    split at hd
    · cases hd
    · cases hd
      rfl
  · cases h

/-- The first of the planned blocks were moved, in their order, and that is what the wallets have seen. -/
def Carried (env : Env) (plan rest : List Planned) (before after : List CWallet) : Prop :=
  ∃ ms : List Move, plan = ms.map Move.entry ++ rest ∧ after = replay env ms before

theorem Carried.append {plan plan' rest : List Planned} {ws ws' ws'' : List CWallet}
    (h : Carried env plan [] ws ws') (h' : Carried env plan' rest ws' ws'') :
    Carried env (plan ++ plan') rest ws ws'' := by
  obtain ⟨ms, hplan, hw⟩ := h
  obtain ⟨ms', hplan', hw'⟩ := h'
  refine ⟨ms ++ ms', ?_, ?_⟩
  · rw [hplan, hplan', List.append_nil, List.map_append, List.append_assoc]
  · rw [replay_append, ← hw, hw']

theorem Carried.stop {plan plan' rest : List Planned} {ws ws' : List CWallet}
    (h : Carried env plan rest ws ws') : Carried env (plan ++ plan') (rest ++ plan') ws ws' := by
  obtain ⟨ms, hplan, hw⟩ := h
  exact ⟨ms, by rw [hplan, List.append_assoc], hw⟩

/-- A round that reads a block and moves it. -/
structure IsMove (env : Env) (host : Host) (fConnect : Bool)
    (round : List CTransaction → CBlockIndex → Node (List CTransaction)) : Prop where
  ok : ∀ {v pindex s r t}, round v pindex s = .ok r t →
    ∃ block, readBlockOf env host pindex = .ok block ∧ t.wallets = Move.sync env s.wallets ⟨block, fConnect⟩
  error : ∀ {v pindex s e t}, round v pindex s = .error e t → t.wallets = s.wallets

theorem disconnectRound_isMove : IsMove env host false (disconnectRound env host) where
  ok h := by
    obtain ⟨block, hread, hd, _⟩ := round_ok.mp h
    exact ⟨block, hread, disconnectBlock_wallets hd⟩
  error h := by
    rcases round_error h with ⟨e', hread, rfl⟩ | ⟨block, e', hread, hd⟩
    · rfl
    · exact disconnectBlock_error hd

theorem connectRound_isMove : IsMove env host true (connectRound env host) where
  ok h := by
    obtain ⟨block, hread, hc, _⟩ := round_ok.mp h
    exact ⟨block, hread, connectBlock_wallets hc⟩
  error h := by
    rcases round_error h with ⟨e', hread, rfl⟩ | ⟨block, e', hread, hc⟩
    · rfl
    · rw [connectBlock_error hc]

section Loop

variable {fConnect : Bool} {round : List CTransaction → CBlockIndex → Node (List CTransaction)}

theorem IsMove.first (hm : IsMove env host fConnect round) {v r : List CTransaction} {pindex : CBlockIndex}
    {s t : State} (h : round v pindex s = .ok r t) :
    Carried env (readAll env host fConnect [pindex]) [] s.wallets t.wallets := by
  obtain ⟨block, hread, hw⟩ := hm.ok h
  refine ⟨[⟨block, fConnect⟩], ?_, hw⟩
  simp [readAll, Move.entry, hread]

theorem IsMove.loop_ok (hm : IsMove env host fConnect round) {l : List CBlockIndex}
    {v r : List CTransaction} {s t : State} (h : l.foldlM round v s = .ok r t) :
    Carried env (readAll env host fConnect l) [] s.wallets t.wallets := by
  induction l generalizing v s with
  | nil =>
    cases h
    exact ⟨[], rfl, rfl⟩
  | cons pindex l ih =>
    obtain ⟨v₁, s₁, h₁, h⟩ := run_bind_ok.mp h
    exact (hm.first h₁).append (ih h)

/-- A loop that fails has not moved all its blocks. -/
theorem IsMove.loop_error (hm : IsMove env host fConnect round) {l : List CBlockIndex}
    {v : List CTransaction} {e : Reject} {s t : State} (h : l.foldlM round v s = .error e t) :
    ∃ rest, rest ≠ [] ∧ Carried env (readAll env host fConnect l) rest s.wallets t.wallets := by
  induction l generalizing v s with
  | nil => cases h
  | cons pindex l ih =>
    rcases run_bind_error.mp h with h₁ | ⟨v₁, s₁, h₁, h⟩
    · exact ⟨readAll env host fConnect (pindex :: l), List.cons_ne_nil _ _, [], rfl, hm.error h₁⟩
    · obtain ⟨rest, hrest, hcarried⟩ := ih h
      exact ⟨rest, hrest, (hm.first h₁).append hcarried⟩

end Loop

theorem txnCommit_error_wallets {s t : State} {e : Reject} (h : txnCommit host s = .error e t) :
    t.wallets = s.wallets := by
  unfold txnCommit at h
  split at h
  · cases h
    rfl
  · cases h

theorem invalidChainFound_wallets (s : State) (pindexNew : CBlockIndex) :
    (s.invalidChainFound pindexNew).wallets = s.wallets := by
  unfold State.invalidChainFound
  split <;> rfl

/-- A call that fails after all planned moves has failed to commit. -/
def Stopped (env : Env) (host : Host) (plan : List Planned) (before after : List CWallet) : Prop :=
  ∃ rest, Carried env plan rest before after ∧ ((∀ db, host.commitFails db = false) → rest = [] → plan = [])

theorem txnCommit_error_fails {s t : State} {e : Reject} (h : txnCommit host s = .error e t) :
    ¬ ∀ db, host.commitFails db = false := by
  intro hcommits
  unfold txnCommit at h
  rw [hcommits] at h
  cases h

theorem Stopped.of_nil {ws ws' : List CWallet} (h : ws' = ws) : Stopped env host [] ws ws' :=
  ⟨[], ⟨[], rfl, h⟩, fun _ _ => rfl⟩

/-- A failed `Reorganize` leaves the wallets with the moves it had made. -/
theorem reorganize_stopped {pindexBest pindexNew pfork : CBlockIndex} {s t : State} {e : Reject}
    (hfork : pindexBest.findFork pindexNew = .ok pfork)
    (h : reorganize env host pindexBest pindexNew s = .error e t) :
    Stopped env host (readAll env host false (CBlockIndex.downTo pfork pindexBest) ++
      readAll env host true (CBlockIndex.downTo pfork pindexNew).reverse) s.wallets t.wallets := by
  unfold reorganize at h
  rcases run_bind_error.mp h with hf | ⟨pfork', s₁, hf, h⟩
  · rw [hfork] at hf
    cases hf
  · obtain ⟨hfork', rfl⟩ := lift_ok.mp hf
    obtain rfl : pfork = pfork' := Except.ok.inj (hfork.symm.trans hfork')
    rcases run_bind_error.mp h with hs | ⟨⟨vResurrect, vDelete⟩, s₂, _, h⟩
    · unfold switchBranch at hs
      rcases run_bind_error.mp hs with hd | ⟨vResurrect, s₁, hd, hs⟩
      · obtain ⟨rest, hrest, hcarried⟩ := disconnectRound_isMove.loop_error hd
        exact ⟨_, hcarried.stop, fun _ hnil => absurd (List.append_eq_nil_iff.mp hnil).1 hrest⟩
      · have hcarried := disconnectRound_isMove.loop_ok hd
        rcases run_bind_error.mp hs with hc | ⟨vDelete, s₂, hc, hs⟩
        · obtain ⟨rest, hrest, hlater⟩ := connectRound_isMove.loop_error hc
          exact ⟨rest, hcarried.append hlater, fun _ hnil => absurd hnil hrest⟩
        · obtain ⟨ms, hplan, hw⟩ := hcarried.append (connectRound_isMove.loop_ok hc)
          -- every block was moved; what failed is the commit
          rcases run_bind_error.mp hs with hwrite | ⟨_, s₃, hwrite, hs⟩
          · cases hwrite
          · cases hwrite
            rcases run_bind_error.mp hs with hcommit | ⟨_, s₄, _, hs⟩
            · obtain ⟨e', hcommit⟩ := named_error hcommit
              refine ⟨[], ⟨ms, hplan, (txnCommit_error_wallets hcommit).trans hw⟩, fun hcommits => ?_⟩
              exact absurd hcommits (txnCommit_error_fails hcommit)
            · cases hs
    · cases h

/-- When `SetBestChainInner` fails, either `ConnectBlock` failed or its block was connected. -/
theorem setBestChainInner_stopped {block : CBlock} {pindexNew : CBlockIndex} {s t : State}
    {e : Reject} (h : setBestChainInner env host block pindexNew s = .error e t) :
    Stopped env host [(true, .ok block)] s.wallets t.wallets := by
  unfold setBestChainInner at h
  split at h
  · rename_i e' t' hx
    cases h
    rcases run_bind_error.mp hx with hc | ⟨_, s₁, _, hw⟩
    · refine ⟨_, ⟨[], rfl, ?_⟩, fun _ hnil => absurd hnil (List.cons_ne_nil _ _)⟩
      rw [invalidChainFound_wallets]
      simp [State.txnAbort, connectBlock_error hc, replay]
    · cases hw
  · rename_i t' hx
    obtain ⟨_, s₁, hc, hw⟩ := run_bind_ok.mp hx
    cases hw
    rcases run_bind_error.mp h with hcommit | ⟨_, s₂, _, h⟩
    · obtain ⟨e', hcommit⟩ := named_error hcommit
      have hmoved := connectBlock_wallets hc
      refine ⟨[], ⟨[⟨block, true⟩], rfl, (txnCommit_error_wallets hcommit).trans hmoved⟩, fun hcommits => ?_⟩
      exact absurd hcommits (txnCommit_error_fails hcommit)
    · cases h

/-- After a failed call the wallets have seen the first blocks of the plan. -/
theorem setBestChain_stopped {block : CBlock} {pindexNew : CBlockIndex} {s t : State} {e : Reject}
    (h : setBestChain env host block pindexNew s = .error e t) :
    Stopped env host (plannedMoves env host block pindexNew s) s.wallets t.wallets := by
  have hm := setBestChain_error h
  have hgenesis : s.txnBegin.pindexGenesisBlock = s.pindexGenesisBlock := rfl
  have hhash : s.txnBegin.hashBestChain = s.hashBestChain := rfl
  have hbest : s.txnBegin.pindexBest = s.pindexBest := rfl
  unfold moveBestChain at hm
  unfold plannedMoves
  rw [hgenesis, hhash, hbest] at hm
  split at hm
  · rename_i hfirst
    rw [if_pos hfirst]
    rcases run_bind_error.mp hm with hw | ⟨_, s₁, hw, hm⟩
    · cases hw
    · cases hw
      rcases run_bind_error.mp hm with hcommit | ⟨_, s₂, _, hm⟩
      · obtain ⟨e', hcommit⟩ := named_error hcommit
        have hwallets := txnCommit_error_wallets hcommit
        exact .of_nil hwallets
      · cases hm
  · rename_i hfirst
    rw [if_neg hfirst]
    split at hm
    · rename_i hext
      rw [if_pos hext]
      obtain ⟨e', hi⟩ := named_error hm
      have hstopped := setBestChainInner_stopped hi
      exact hstopped
    · rename_i hext
      rw [if_neg hext]
      cases hsome : s.pindexBest with
      | none =>
        simp only [hsome] at hm
        cases hm
        exact .of_nil rfl
      | some pindexBest =>
        simp only [hsome, switchBestChain] at hm
        split at hm
        · rename_i e' t' hr
          cases hm
          have hwallets := invalidChainFound_wallets t'.txnAbort pindexNew
          cases hfork : pindexBest.findFork (pindexNew.postpone pindexBest.nChainTrust).1 with
          | error e =>
            simp only [hfork]
            refine .of_nil (hwallets.trans ?_)
            unfold reorganize at hr
            rcases run_bind_error.mp hr with hf | ⟨pfork, s₁, hf, -⟩
            · rw [← (lift_error.mp hf).2]
              rfl
            · rw [hfork] at hf
              cases hf
          | ok pfork =>
            simp only [hfork]
            obtain ⟨rest, ⟨ms, hplan, hw⟩, hrest⟩ := reorganize_stopped hfork hr
            exact ⟨rest, ⟨ms, hplan, hwallets.trans hw⟩, hrest⟩
        · cases hm

end Replay

namespace Sample

def stranger : CWallet where
  ownsScript script := script == [0x52]
  mapWallet _ := none

end Sample

end Triangles
