import Triangles.Lib.Assoc
import Triangles.Lib.Trace
import Triangles.Model.ProcessBlock
import Triangles.Proofs.SyncSafety
import Triangles.Proofs.Trust

/-! The orphan blocks over any run of `ProcessBlock`. -/

namespace Triangles

open Outcome Trace

/-- The three containers as they are meant: the multimap has the orphans under the hashes they
wait for, the stakes of the orphans are seen, and no orphan waits for a block that is
indexed. -/
structure BlockNode.OrphansExact (n : BlockNode) : Prop where
  byPrev : ∀ prev b, (prev, b) ∈ n.mapOrphanBlocksByPrev ↔
    prev = b.hashPrevBlock ∧ ∃ h, n.mapOrphanBlocks.lookup h = some b
  once : n.mapOrphanBlocksByPrev.Nodup
  stakes : ∀ h b, n.mapOrphanBlocks.lookup h = some b → b.isProofOfStake = true →
    b.getProofOfStake ∈ n.setStakeSeenOrphan
  waiting : ∀ h b, n.mapOrphanBlocks.lookup h = some b →
    n.mapBlockIndex.find b.hashPrevBlock = none

/-! Steps that go well. -/

/-- `AcceptBlock` returns false although the block has come into the index, and an orphan
waits for it. -/
def stranded (env : IndexEnv) (mode : CPMode) (host : ProcessHost) (n : BlockNode)
    (block : CBlock) : Bool :=
  let (accepted, t) := n.offer env mode host block
  !accepted && t.mapBlockIndex.has (block.getHash env.toEnv) &&
    n.toOrphanBlocks.hasChild (block.getHash env.toEnv)

def loopOrderly (env : IndexEnv) (mode : CPMode) (host : ProcessHost) :
    Nat → Nat → BlockNode × List uint256 → Bool
  | 0, _, _ => true
  | rounds + 1, i, w =>
    match w.2[i]? with
    | none => true
    | some hashPrev =>
      ((trace (releaseOrphan env mode host) w (w.1.toOrphanBlocks.waitingFor hashPrev)).all
        fun x => !stranded env mode host x.1.1 x.2) &&
      loopOrderly env mode host rounds (i + 1) (releaseWaiting env mode host w hashPrev)

/-- No block is stranded, and no orphan is stored whose stake another orphan has. Nothing is
asked of a call that turns the block down at once. -/
def orderly (env : IndexEnv) (mode : CPMode) (host : ProcessHost) (n : BlockNode)
    (block : CBlock) : Bool :=
  if !succeeds (processChecks env.toEnv (host.offering block).toHost n block) then true
  else if (n.mapBlockIndex.find block.hashPrevBlock).isNone then
    !(block.isProofOfStake && decide (block.getProofOfStake ∈ n.setStakeSeenOrphan) &&
      n.duplicateAllowed (block.getHash env.toEnv))
  else
    let (_, t) := n.offer env mode host block
    !stranded env mode host n block &&
      loopOrderly env mode host (t.mapOrphanBlocksByPrev.length + 1) 0 (t, [block.getHash env.toEnv])

namespace OrphanBlocks

/-- What orderly steps keep of the containers alone. -/
structure Sound (env : Env) (o : OrphanBlocks) : Prop where
  own_hash : ∀ {h b}, o.mapOrphanBlocks.lookup h = some b → b.getHash env = h
  byPrev : ∀ prev b, (prev, b) ∈ o.mapOrphanBlocksByPrev ↔
    prev = b.hashPrevBlock ∧ o.mapOrphanBlocks.lookup (b.getHash env) = some b
  once : o.mapOrphanBlocksByPrev.Nodup
  stakes : ∀ {h b}, o.mapOrphanBlocks.lookup h = some b → b.isProofOfStake = true →
    b.getProofOfStake ∈ o.setStakeSeenOrphan
  distinct : ∀ {h h' b b'}, o.mapOrphanBlocks.lookup h = some b →
    o.mapOrphanBlocks.lookup h' = some b' → b.isProofOfStake = true → b'.isProofOfStake = true →
    b.getProofOfStake = b'.getProofOfStake → h = h'

variable {env : Env} {o : OrphanBlocks}

theorem Sound.store {block : CBlock} (hs : Sound env o)
    (hnew : o.mapOrphanBlocks.lookup (block.getHash env) = none)
    (hstake : block.isProofOfStake = true → block.getProofOfStake ∉ o.setStakeSeenOrphan) :
    Sound env (o.store env block) where
  own_hash := by
    intro h b hb
    rw [OrphanBlocks.store, Assoc.lookup_insert_eq] at hb
    split at hb
    · rename_i hh
      rw [← Option.some.inj hb, hh]
    · exact hs.own_hash hb
  byPrev := by
    intro prev b
    simp only [OrphanBlocks.store, List.mem_append, hs.byPrev, List.mem_singleton, Prod.mk.injEq,
      Assoc.lookup_insert_eq]
    constructor
    · rintro (⟨hprev, hb⟩ | ⟨hprev, rfl⟩)
      · refine ⟨hprev, ?_⟩
        rw [if_neg]
        · exact hb
        · intro he
          rw [he, hnew] at hb
          cases hb
      · exact ⟨hprev, if_pos rfl⟩
    · rintro ⟨hprev, hb⟩
      split at hb
      · cases hb
        exact .inr ⟨hprev, rfl⟩
      · exact .inl ⟨hprev, hb⟩
  once := by
    refine List.Nodup.append hs.once (List.nodup_singleton _) ?_
    intro e he hmem
    rw [List.mem_singleton.mp hmem, hs.byPrev, hnew] at he
    cases he.2
  stakes := by
    intro h b hb hpos
    rw [OrphanBlocks.store, Assoc.lookup_insert_eq] at hb
    simp only [OrphanBlocks.store]
    split at hb
    · cases hb
      rw [if_pos hpos]
      exact Finset.mem_insert_self _ _
    · split
      · exact Finset.mem_insert_of_mem (hs.stakes hb hpos)
      · exact hs.stakes hb hpos
  distinct := by
    intro h h' b b' hb hb' hpos hpos' heq
    rw [OrphanBlocks.store, Assoc.lookup_insert_eq] at hb hb'
    -- the stake of the new block is not among those of the others
    split at hb
    · rename_i hh
      cases hb
      split at hb'
      · rename_i hh'
        rw [hh, hh']
      · exact absurd (heq ▸ hs.stakes hb' hpos') (hstake hpos)
    · split at hb'
      · cases hb'
        exact absurd (heq.symm ▸ hs.stakes hb hpos) (hstake hpos')
      · exact hs.distinct hb hb' hpos hpos' heq

theorem mem_waitingFor {hashPrev : uint256} {b : CBlock} :
    b ∈ o.waitingFor hashPrev ↔ (hashPrev, b) ∈ o.mapOrphanBlocksByPrev := by
  unfold waitingFor
  simp [and_comm]

theorem hasChild_iff {hash : uint256} :
    o.hasChild hash = true ↔ ∃ b, (hash, b) ∈ o.mapOrphanBlocksByPrev := by
  simp [hasChild]

theorem Sound.hasChild (hs : Sound env o) {h : uint256} {b : CBlock}
    (hb : o.mapOrphanBlocks.lookup h = some b) : o.hasChild b.hashPrevBlock = true := by
  have hown := hs.own_hash hb
  exact hasChild_iff.mpr ⟨b, (hs.byPrev _ _).mpr ⟨rfl, hown ▸ hb⟩⟩

theorem foldl_release (l : List CBlock) (o : OrphanBlocks) :
    l.foldl (release env) o =
      { o with
        mapOrphanBlocks := l.foldl (fun m b => m.erase (b.getHash env)) o.mapOrphanBlocks
        setStakeSeenOrphan :=
          l.foldl (fun m b => m.erase b.getProofOfStake) o.setStakeSeenOrphan } := by
  induction l generalizing o with
  | nil => rfl
  | cons b l ih => rw [List.foldl_cons, ih]; rfl

/-- The orphans that wait for a block are taken out. -/
theorem Sound.lookup_release (hs : Sound env o) (hashPrev h : uint256) (b : CBlock) :
    (((o.waitingFor hashPrev).foldl (release env) o).erasePrev hashPrev).mapOrphanBlocks.lookup h =
      some b ↔ o.mapOrphanBlocks.lookup h = some b ∧ b.hashPrevBlock ≠ hashPrev := by
  rw [foldl_release]
  simp only [erasePrev, Assoc.lookup_foldl_erase, List.mem_map]
  constructor
  · intro hb
    split at hb
    · cases hb
    · rename_i hnot
      refine ⟨hb, ?_⟩
      rintro rfl
      have hown := hs.own_hash hb
      exact hnot ⟨b, mem_waitingFor.mpr ((hs.byPrev _ _).mpr ⟨rfl, hown ▸ hb⟩), hown⟩
  · rintro ⟨hb, hne⟩
    rw [if_neg]
    · exact hb
    · rintro ⟨b', hmem, rfl⟩
      obtain ⟨hprev, hb'⟩ := (hs.byPrev _ _).mp (mem_waitingFor.mp hmem)
      rw [hb] at hb'
      cases hb'
      exact hne hprev.symm

end OrphanBlocks

/-- A coinstake spends something, so its stake is not the one given to other blocks. -/
theorem getProofOfStake_ne {b b' : CBlock} (hb : b.isProofOfStake = true)
    (hb' : b'.isProofOfStake = false) : b.getProofOfStake ≠ b'.getProofOfStake := by
  obtain ⟨header, vtx, sig⟩ := b
  have hnull : b'.getProofOfStake = (⟨0, 0xffffffff⟩, 0) := by
    unfold CBlock.getProofOfStake
    rw [hb']
  rw [hnull]
  match vtx, hb with
  | coinbase :: tx :: rest, hb =>
    intro he
    have hstake : tx.isCoinStake = true := hb
    unfold CBlock.getProofOfStake at he
    simp only [hb] at he
    unfold CTransaction.isCoinStake at hstake
    split at hstake
    · rename_i txin _ _ _ _ hvin _
      simp only [hvin, List.head?_cons, Option.map_some, Option.getD_some, Prod.mk.injEq] at he
      rw [he.1] at hstake
      exact absurd hstake (by simp [COutPoint.isNull])
    · cases hstake

theorem OrphanBlocks.Sound.released {env : Env} {o : OrphanBlocks} (hs : o.Sound env)
    (hashPrev : uint256) :
    Sound env (((o.waitingFor hashPrev).foldl (release env) o).erasePrev hashPrev) where
  own_hash := by
    intro h b hb
    rw [hs.lookup_release] at hb
    exact hs.own_hash hb.1
  byPrev := by
    intro prev b
    rw [hs.lookup_release, foldl_release]
    simp only [erasePrev, List.mem_filter, bne_iff_ne, ne_eq, hs.byPrev]
    constructor
    · rintro ⟨⟨rfl, hb⟩, hne⟩
      exact ⟨rfl, hb, hne⟩
    · rintro ⟨rfl, hb, hne⟩
      exact ⟨⟨rfl, hb⟩, hne⟩
  once := by
    rw [foldl_release]
    exact hs.once.filter _
  stakes := by
    intro h b hb hpos
    rw [hs.lookup_release] at hb
    rw [foldl_release]
    simp only [erasePrev, Assoc.mem_foldl_erase, List.mem_map, not_exists, not_and]
    refine ⟨hs.stakes hb.1 hpos, ?_⟩
    intro b' hmem heq
    obtain ⟨hprev, hb'⟩ := (hs.byPrev _ _).mp (mem_waitingFor.mp hmem)
    cases hpos' : b'.isProofOfStake with
    | false => exact getProofOfStake_ne hpos hpos' heq.symm
    | true =>
      -- the only orphan with the stake would be the released one
      have hhash := hs.distinct hb' hb.1 hpos' hpos heq
      rw [hhash, hb.1] at hb'
      cases hb'
      exact hb.2 hprev.symm
  distinct := by
    intro h h' b b' hb hb' hpos hpos' heq
    rw [hs.lookup_release] at hb hb'
    exact hs.distinct hb.1 hb'.1 hpos hpos' heq

/-! The work loop. -/

section Loop

variable {env : IndexEnv} {mode : CPMode} {host : ProcessHost}

/-- Only the offered block can come into the index. -/
theorem offer_has {n : BlockNode} {block : CBlock} {prev : uint256}
    (h : (n.offer env mode host block).2.mapBlockIndex.has prev = true) :
    n.mapBlockIndex.has prev = true ∨ prev = block.getHash env.toEnv := by
  change (leaves (acceptBlock env mode (host.offering block) block)
    n.toFullNode).mapBlockIndex.has prev = true at h
  rcases acceptBlock_index env mode (host.offering block) n.toFullNode block with
    hsame | ⟨pindexNew, hadmits, hentered⟩
  · rw [hsame.mapBlockIndex] at h
    exact .inl h
  · rw [hentered.mapBlockIndex, BlockMap.has, hadmits.entered_find] at h
    split at h
    · rename_i hprev
      exact .inr (hprev.trans hadmits.hash)
    · exact .inl h

section Round

variable (env mode host) (w : BlockNode × List uint256) (block : CBlock)

theorem releaseOrphan_index : (releaseOrphan env mode host w block).1.mapBlockIndex =
    (w.1.offer env mode host block).2.mapBlockIndex := rfl

theorem releaseOrphan_queue : (releaseOrphan env mode host w block).2 =
    if (w.1.offer env mode host block).1 then w.2 ++ [block.getHash env.toEnv] else w.2 := rfl

end Round

/-- What comes into the index in one round and is waited for has been queued. -/
theorem releaseOrphan_has {w : BlockNode × List uint256} {block : CBlock} {prev : uint256}
    (hclean : stranded env mode host w.1 block = false)
    (hchild : w.1.toOrphanBlocks.hasChild prev = true)
    (h : (releaseOrphan env mode host w block).1.mapBlockIndex.has prev = true) :
    w.1.mapBlockIndex.has prev = true ∨
      (w.1.offer env mode host block).1 = true ∧ prev = block.getHash env.toEnv := by
  rw [releaseOrphan_index] at h
  rcases offer_has h with hold | hnew
  · exact .inl hold
  · subst hnew
    refine .inr ⟨?_, rfl⟩
    by_contra hfail
    simp [stranded, hfail, h, hchild] at hclean

/-- What the inner loop does: the orphans are released, and the hashes of those that were
accepted are queued. Whatever comes into the index and is waited for has been queued. -/
theorem releaseAll_spec (l : List CBlock) (w : BlockNode × List uint256)
    (hclean : ∀ x ∈ trace (releaseOrphan env mode host) w l,
      stranded env mode host x.1.1 x.2 = false) :
    (l.foldl (releaseOrphan env mode host) w).1.toOrphanBlocks =
      l.foldl (OrphanBlocks.release env.toEnv) w.1.toOrphanBlocks ∧
    ∃ accepted, (l.foldl (releaseOrphan env mode host) w).2 = w.2 ++ accepted ∧
      accepted.length ≤ l.length ∧
      ∀ prev, w.1.toOrphanBlocks.hasChild prev = true →
        (l.foldl (releaseOrphan env mode host) w).1.mapBlockIndex.has prev = true →
        w.1.mapBlockIndex.has prev = true ∨ prev ∈ accepted := by
  induction l generalizing w with
  | nil => exact ⟨rfl, [], by simp, le_rfl, fun prev _ h => .inl h⟩
  | cons block l ih =>
    rw [trace_cons, List.forall_mem_cons] at hclean
    obtain ⟨horphans, accepted, hq, hlen, hin⟩ := ih _ hclean.2
    rw [releaseOrphan_queue] at hq
    rw [List.foldl_cons, List.foldl_cons]
    refine ⟨horphans, ?_⟩
    cases hok : (w.1.offer env mode host block).1 with
    | true =>
      rw [if_pos hok, List.append_assoc] at hq
      refine ⟨[block.getHash env.toEnv] ++ accepted, hq, by simpa using hlen, ?_⟩
      intro prev hchild h
      rcases hin prev hchild h with hold | hnew
      · rcases releaseOrphan_has hclean.1 hchild hold with hold | ⟨_, rfl⟩
        · exact .inl hold
        · exact .inr (List.mem_append_left _ (List.mem_singleton_self _))
      · exact .inr (List.mem_append_right _ hnew)
    | false =>
      rw [if_neg (by simp [hok])] at hq
      refine ⟨accepted, hq, hlen.trans (Nat.le_succ _), ?_⟩
      intro prev hchild h
      rcases hin prev hchild h with hold | hnew
      · rcases releaseOrphan_has hclean.1 hchild hold with hold | ⟨hyes, _⟩
        · exact .inl hold
        · rw [hok] at hyes
          cases hyes
      · exact .inr hnew

/-- In the work loop from entry `i` of the queue on: whoever waits for an indexed block waits
for one that is still to come in the queue. -/
structure Working (env : Env) (i : Nat) (w : BlockNode × List uint256) : Prop where
  sound : w.1.toOrphanBlocks.Sound env
  waiting : ∀ h b, w.1.mapOrphanBlocks.lookup h = some b →
    w.1.mapBlockIndex.has b.hashPrevBlock = true → b.hashPrevBlock ∈ w.2.drop i

theorem releaseWaiting_spec {i : Nat} {w : BlockNode × List uint256} {hashPrev : uint256}
    (hw : Working env.toEnv i w) (hi : w.2[i]? = some hashPrev)
    (hclean : ∀ x ∈ trace (releaseOrphan env mode host) w (w.1.toOrphanBlocks.waitingFor hashPrev),
      stranded env mode host x.1.1 x.2 = false) :
    Working env.toEnv (i + 1) (releaseWaiting env mode host w hashPrev) ∧
      (releaseWaiting env mode host w hashPrev).2.length +
          (releaseWaiting env mode host w hashPrev).1.mapOrphanBlocksByPrev.length ≤
        w.2.length + w.1.mapOrphanBlocksByPrev.length := by
  obtain ⟨horphans, accepted, hq, hlen, hin⟩ := releaseAll_spec _ w hclean
  have hout : (releaseWaiting env mode host w hashPrev).1.toOrphanBlocks =
      ((w.1.toOrphanBlocks.waitingFor hashPrev).foldl (OrphanBlocks.release env.toEnv)
        w.1.toOrphanBlocks).erasePrev hashPrev := by
    rw [← horphans]
    rfl
  have hqueue : (releaseWaiting env mode host w hashPrev).2 = w.2 ++ accepted := hq
  obtain ⟨hlt, hget⟩ := List.getElem?_eq_some_iff.mp hi
  refine ⟨⟨?_, ?_⟩, ?_⟩
  · rw [hout]
    exact hw.sound.released hashPrev
  · intro h b hb hhas
    rw [hout, hw.sound.lookup_release] at hb
    obtain ⟨hb, hne⟩ := hb
    rw [hqueue, List.drop_append_of_le_length (by omega), List.mem_append]
    rcases hin _ (hw.sound.hasChild hb) hhas with hold | hnew
    · have hmem := hw.waiting h b hb hold
      rw [List.drop_eq_getElem_cons hlt, hget, List.mem_cons] at hmem
      exact .inl (hmem.resolve_left hne)
    · exact .inr hnew
  · have hfilter : (w.1.toOrphanBlocks.waitingFor hashPrev).length +
        (releaseWaiting env mode host w hashPrev).1.mapOrphanBlocksByPrev.length =
          w.1.mapOrphanBlocksByPrev.length := by
      rw [hout, OrphanBlocks.foldl_release, OrphanBlocks.waitingFor, List.length_map]
      exact (List.length_eq_length_filter_add _).symm
    rw [hqueue, List.length_append]
    omega

/-- With enough rounds the loop goes through the whole queue. -/
theorem releaseLoop_spec (rounds i : Nat) (w : BlockNode × List uint256)
    (hrounds : w.2.length + w.1.mapOrphanBlocksByPrev.length ≤ i + rounds)
    (hw : Working env.toEnv i w) (hclean : loopOrderly env mode host rounds i w = true) :
    ∃ j, Working env.toEnv j (releaseLoop env mode host rounds i w) ∧
      (releaseLoop env mode host rounds i w).2.length ≤ j := by
  induction rounds generalizing i w with
  | zero => exact ⟨i, hw, by rw [releaseLoop]; omega⟩
  | succ rounds ih =>
    rw [releaseLoop]
    rw [loopOrderly] at hclean
    cases hi : w.2[i]? with
    | none => exact ⟨i, hw, List.getElem?_eq_none_iff.mp hi⟩
    | some hashPrev =>
      simp only [hi, Bool.and_eq_true, List.all_eq_true, Bool.not_eq_true'] at hclean
      obtain ⟨hnext, hlen⟩ := releaseWaiting_spec hw hi hclean.1
      exact ih _ _ (by omega) hnext hclean.2

end Loop

/-! One call. -/

structure BlockNode.Kept (env : Env) (n : BlockNode) : Prop where
  sound : n.toOrphanBlocks.Sound env
  waiting : ∀ h b, n.mapOrphanBlocks.lookup h = some b →
    n.mapBlockIndex.find b.hashPrevBlock = none

theorem BlockNode.Kept.exact {env : Env} {n : BlockNode} (h : n.Kept env) : n.OrphansExact where
  byPrev := by
    intro prev b
    rw [h.sound.byPrev]
    constructor
    · rintro ⟨hprev, hb⟩
      exact ⟨hprev, _, hb⟩
    · rintro ⟨hprev, _, hb⟩
      exact ⟨hprev, by rw [h.sound.own_hash hb]; exact hb⟩
  once := h.sound.once
  stakes := fun _ _ => h.sound.stakes
  waiting := h.waiting

/-- At the end of the queue nobody waits for an indexed block. -/
theorem Working.kept {env : Env} {i : Nat} {w : BlockNode × List uint256} (hw : Working env i w)
    (hi : w.2.length ≤ i) : w.1.Kept env := by
  refine ⟨hw.sound, ?_⟩
  intro h b hb
  by_contra hhas
  have hmem := hw.waiting h b hb (Option.isSome_iff_ne_none.mpr hhas)
  rw [List.drop_eq_nil_of_le hi] at hmem
  cases hmem

section Call

variable {env : IndexEnv} {mode : CPMode} {host : ProcessHost} {n : BlockNode} {block : CBlock}

theorem processChecks_ok {env : Env} {host : Host}
    (h : processChecks env host n block = .ok ()) :
    n.mapOrphanBlocks.lookup (block.getHash env) = none := by
  simp only [processChecks, check_bind] at h
  exact Option.isNone_iff_eq_none.mp h.2.1

theorem storeOrphan_kept (hn : n.Kept env.toEnv)
    (hnew : n.mapOrphanBlocks.lookup (block.getHash env.toEnv) = none)
    (hprev : n.mapBlockIndex.find block.hashPrevBlock = none)
    (hstake : block.isProofOfStake = true → block.getProofOfStake ∈ n.setStakeSeenOrphan →
      n.duplicateAllowed (block.getHash env.toEnv) = false) :
    (leaves (storeOrphan env.toEnv block) n).Kept env.toEnv := by
  unfold storeOrphan leaves
  by_cases hdup : block.isProofOfStake = true ∧ block.getProofOfStake ∈ n.setStakeSeenOrphan ∧
      n.duplicateAllowed (block.getHash env.toEnv) = false
  · simp only [if_pos hdup]
    exact hn
  · simp only [if_neg hdup]
    refine ⟨hn.sound.store hnew fun hpos hseen => hdup ⟨hpos, hseen, hstake hpos hseen⟩, ?_⟩
    intro h b hb
    change (n.mapOrphanBlocks.insert _ _).lookup h = some b at hb
    rw [Assoc.lookup_insert_eq] at hb
    split at hb
    · cases hb
      exact hprev
    · exact hn.waiting h b hb

/-- Offering a block that is not stranded leaves as the only indexed blocks that are waited
for the block itself, if it was accepted. -/
theorem offer_waiting (hn : n.Kept env.toEnv) (hclean : stranded env mode host n block = false)
    {h : uint256} {b : CBlock} (hb : n.mapOrphanBlocks.lookup h = some b)
    (hhas : (n.offer env mode host block).2.mapBlockIndex.has b.hashPrevBlock = true) :
    (n.offer env mode host block).1 = true ∧ b.hashPrevBlock = block.getHash env.toEnv := by
  have hround := releaseOrphan_has (w := (n, [])) hclean (hn.sound.hasChild hb) hhas
  rcases hround with hold | hnew
  · simp [BlockMap.has, hn.waiting h b hb] at hold
  · exact hnew

/-- A block that is turned down changes nothing for the orphans. -/
theorem offer_refused (hn : n.Kept env.toEnv) (hclean : stranded env mode host n block = false)
    (hno : (n.offer env mode host block).1 = false) :
    (n.offer env mode host block).2.Kept env.toEnv := by
  refine ⟨hn.sound, ?_⟩
  intro h b hb
  by_contra hhas
  have hyes := (offer_waiting hn hclean hb (Option.isSome_iff_ne_none.mpr hhas)).1
  rw [hno] at hyes
  cases hyes

/-- After a block that is accepted the work loop starts with its hash. -/
theorem offer_working (hn : n.Kept env.toEnv) (hclean : stranded env mode host n block = false) :
    Working env.toEnv 0 ((n.offer env mode host block).2, [block.getHash env.toEnv]) := by
  refine ⟨hn.sound, ?_⟩
  intro h b hb hhas
  exact List.mem_singleton.mpr (offer_waiting hn hclean hb hhas).2

theorem sendSyncCheckpoint_index (env : Env) (host : Host) (n : FullNode) :
    (sendSyncCheckpoint env host n).mapBlockIndex = n.mapBlockIndex := by
  unfold sendSyncCheckpoint
  split
  · rfl
  · exact (processSyncCheckpoint_step _ n).sameIndex.mapBlockIndex

theorem sendSyncCheckpoint_kept (host : Host) (hn : n.Kept env.toEnv) :
    BlockNode.Kept env.toEnv
      { n with toFullNode := sendSyncCheckpoint env.toEnv host n.toFullNode } := by
  refine ⟨hn.sound, ?_⟩
  intro h b hb
  have hfind := hn.waiting h b hb
  rw [← sendSyncCheckpoint_index env.toEnv host n.toFullNode] at hfind
  exact hfind

/-- An orderly call keeps the containers as they are meant. -/
theorem processBlock_kept (hn : n.Kept env.toEnv) (hclean : orderly env mode host n block = true) :
    (leaves (processBlock env mode host block) n).Kept env.toEnv := by
  unfold processBlock leaves
  simp only
  cases hchecks : processChecks env.toEnv (host.offering block).toHost n block with
  | error e => exact hn
  | ok u =>
    have hnew := processChecks_ok hchecks
    unfold orderly at hclean
    simp only [hchecks, Outcome.succeeds, Bool.not_true, Bool.false_eq_true, if_false] at hclean
    cases hprev : n.mapBlockIndex.find block.hashPrevBlock with
    | none =>
      simp only [hprev, Option.isNone_none, if_true, Bool.not_eq_true', Bool.and_eq_false_iff,
        decide_eq_false_iff_not] at hclean
      refine storeOrphan_kept hn hnew hprev ?_
      intro hpos hseen
      simpa [hpos, hseen] using hclean
    | some p =>
      simp only [hprev, Option.isNone_some, Bool.false_eq_true, if_false, Bool.and_eq_true,
        Bool.not_eq_true'] at hclean
      obtain ⟨hstranded, hloop⟩ := hclean
      have hrefused := offer_refused hn hstranded
      have hworking := offer_working hn hstranded
      cases hoffer : n.offer env mode host block with
      | mk accepted t =>
        rw [hoffer] at hloop hrefused hworking
        cases accepted with
        | false => exact hrefused rfl
        | true =>
          obtain ⟨j, hend, hlen⟩ := releaseLoop_spec (t.mapOrphanBlocksByPrev.length + 1) 0 _
            (by simp [Nat.add_comm]) hworking hloop
          have hkept := hend.kept hlen
          cases host.master with
          | false => exact hkept
          | true => exact sendSyncCheckpoint_kept (host.offering block).toHost hkept

end Call

/-! Runs. -/

/-- A block arrives, or something happens elsewhere in the program. Only `ProcessBlock` writes
to the block index and to the orphan blocks. -/
inductive BlockOp where
  | processBlock (host : ProcessHost) (block : CBlock)
  | elsewhere (change : FullNode → FullNode)

def BlockOp.apply (env : IndexEnv) (mode : CPMode) (n : BlockNode) : BlockOp → BlockNode
  | .processBlock host block => leaves (Triangles.processBlock env mode host block) n
  | .elsewhere change =>
    { n with toFullNode :=
        { change n.toFullNode with
          mapBlockIndex := n.mapBlockIndex
          setStakeSeen := n.setStakeSeen } }

/-- A node without orphans. -/
def FullNode.withoutOrphans (n : FullNode) : BlockNode :=
  { n with mapOrphanBlocks := ∅, mapOrphanBlocksByPrev := [], setStakeSeenOrphan := ∅ }

def BlockOp.isOrderly (env : IndexEnv) (mode : CPMode) (n : BlockNode) : BlockOp → Bool
  | .processBlock host block => orderly env mode host n block
  | .elsewhere _ => true

def allOrderly (env : IndexEnv) (mode : CPMode) : BlockNode → List BlockOp → Bool
  | _, [] => true
  | n, op :: ops => op.isOrderly env mode n && allOrderly env mode (op.apply env mode n) ops

section Runs

variable {env : IndexEnv} {mode : CPMode}

theorem withoutOrphans_kept (env : Env) (n : FullNode) : n.withoutOrphans.Kept env := by
  refine ⟨⟨?_, ?_, List.nodup_nil, ?_, ?_⟩, ?_⟩ <;> simp [FullNode.withoutOrphans]

theorem run_kept {n : BlockNode} (hn : n.Kept env.toEnv) (ops : List BlockOp)
    (hops : allOrderly env mode n ops = true) :
    ∀ t ∈ ops.scanl (BlockOp.apply env mode) n, t.Kept env.toEnv := by
  induction ops generalizing n with
  | nil => simpa using hn
  | cons op ops ih =>
    rw [allOrderly, Bool.and_eq_true] at hops
    rw [List.scanl_cons, List.forall_mem_cons]
    refine ⟨hn, ih ?_ hops.2⟩
    cases op with
    | processBlock host block => exact processBlock_kept hn hops.1
    | elsewhere change => exact ⟨hn.sound, hn.waiting⟩

/-- In every run whose calls strand no block that an orphan waits for, and store no orphan
with the stake of another, the three containers are as they are meant after every call. -/
theorem orphan_blocks_exact (n : FullNode) (ops : List BlockOp)
    (hops : allOrderly env mode n.withoutOrphans ops = true) :
    ∀ t ∈ ops.scanl (BlockOp.apply env mode) n.withoutOrphans, t.OrphansExact :=
  fun t ht => (run_kept (withoutOrphans_kept env.toEnv n) ops hops t ht).exact

end Runs

namespace Sample

def arrivalEnv : IndexEnv :=
  { netEnv false with
    hash9 := fun header =>
      if header.nTime = 0 then hashGenesisBlock else header.nTime.toNat + header.nNonce.toNat }

def arrivalHost : ProcessHost where
  offering _ := { nAdjustedTime := 6000, spot := some mainSpot }

def arrive (block : CBlock) : BlockOp := .processBlock arrivalHost block

def afterArrivals (blocks : List CBlock) : BlockNode :=
  (blocks.map arrive).foldl (BlockOp.apply arrivalEnv .STRICT) rootNode.withoutOrphans

def overpaidBlock : CBlock := blockOf hashGenesisBlock 40 [coinbase 39 (100 * COIN)]

def childBlock : CBlock := blockOf 40 50 [coinbase 49 COIN 2]

/-- Two blocks with one stake, the first on top of `mainBlock`, and a block on top of the
second. -/
def stakeOrphan : CBlock := stakeBlock 30 5000 2 0x1d00ffff

def twinOrphan : CBlock := { stakeBlock 77 5000 2 0x1d00ffff with nNonce := 1 }

def twinChild : CBlock := blockOf 5001 5100 [coinbase 5099 COIN 3]

end Sample

/-- An orphan is released when the block it waits for arrives. -/
theorem mainBlock_releases_orphan :
    (Sample.afterArrivals [Sample.stakeOrphan]).mapOrphanBlocks.keys = [5000] ∧
    ∀ t ∈ ([Sample.stakeOrphan, Sample.mainBlock].map Sample.arrive).scanl
        (BlockOp.apply Sample.arrivalEnv .STRICT) Sample.rootNode.withoutOrphans, t.OrphansExact :=
  ⟨by decide +kernel, orphan_blocks_exact Sample.rootNode _ (by decide +kernel)⟩

/-- A block that does not connect comes into the index and leaves the orphan on top of it
waiting. And when one of two orphans with the same stake is released, the stake of the other
is forgotten. -/
theorem arrivals_leave_orphans :
    ¬ (Sample.afterArrivals [Sample.childBlock, Sample.overpaidBlock]).OrphansExact ∧
    ¬ (Sample.afterArrivals [Sample.twinChild, Sample.stakeOrphan, Sample.twinOrphan,
        Sample.mainBlock]).OrphansExact := by
  constructor
  · intro h
    have hstored : (Sample.afterArrivals [Sample.childBlock,
        Sample.overpaidBlock]).mapOrphanBlocks.lookup 50 = some Sample.childBlock := by decide +kernel
    have hindexed : ((Sample.afterArrivals [Sample.childBlock,
        Sample.overpaidBlock]).mapBlockIndex.find Sample.childBlock.hashPrevBlock).isSome = true := by
      decide +kernel
    rw [h.waiting 50 Sample.childBlock hstored] at hindexed
    cases hindexed
  · intro h
    have hstored : (Sample.afterArrivals [Sample.twinChild, Sample.stakeOrphan, Sample.twinOrphan,
        Sample.mainBlock]).mapOrphanBlocks.lookup 5001 = some Sample.twinOrphan := by decide +kernel
    have hforgotten : Sample.twinOrphan.getProofOfStake ∉ (Sample.afterArrivals [Sample.twinChild,
        Sample.stakeOrphan, Sample.twinOrphan, Sample.mainBlock]).setStakeSeenOrphan := by
      decide +kernel
    have hpos : Sample.twinOrphan.isProofOfStake = true := by decide
    generalize Sample.afterArrivals _ = n at h hstored hforgotten
    exact hforgotten (h.stakes 5001 Sample.twinOrphan hstored hpos)

end Triangles
