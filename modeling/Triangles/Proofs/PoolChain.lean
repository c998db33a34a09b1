import Mathlib.Logic.Relation
import Triangles.Model.Node
import Triangles.Proofs.Coherence
import Triangles.Proofs.Pool

/-! What taking a transaction out of the pool takes along: the transactions that depend on it
through outputs nobody else confirmed. -/

namespace Triangles

open Outcome

/-- The pool has `tx` under its own hash. -/
def Holds (env : Env) (pool : CTxMemPool) (tx : CTransaction) : Prop :=
  pool.mapTx.lookup (tx.getHash env) = some tx

instance (env : Env) (pool : CTxMemPool) (tx : CTransaction) : Decidable (Holds env pool tx) :=
  inferInstanceAs (Decidable (pool.mapTx.lookup (tx.getHash env) = some tx))

def CTransaction.prevouts (tx : CTransaction) : List COutPoint := tx.vin.map CTxIn.prevout

def SpendsFrom (env : Env) (a b : CTransaction) : Prop :=
  ∃ o ∈ a.prevouts, o.hash = b.getHash env ∧ o.n.toNat < b.vout.length

instance (env : Env) (a b : CTransaction) : Decidable (SpendsFrom env a b) :=
  inferInstanceAs (Decidable (∃ o ∈ a.prevouts, o.hash = b.getHash env ∧ o.n.toNat < b.vout.length))

/-- No chain of these transactions, each spending from the one before, leads back to its start:
the hash of a transaction is known only when its inputs are. -/
def Ordered (env : Env) (txs : List CTransaction) : Prop :=
  ∃ rank : CTransaction → Nat, ∀ a ∈ txs, ∀ b ∈ txs, SpendsFrom env a b → rank b < rank a

/-- Whoever is still there has kept the transactions it spends from, those of `D` apart. -/
def ClosedBut (env : Env) (D : List CTransaction) (pool pool' : CTxMemPool) : Prop :=
  ∀ a, Holds env pool' a → ∀ b, Holds env pool b → b ∉ D → SpendsFrom env a b → Holds env pool' b

section Basics

variable {env : Env} {pool pool' : CTxMemPool} {D : List CTransaction}

theorem PoolIndexed.holds (hp : PoolIndexed env pool) {h : uint256} {tx : CTransaction}
    (ht : pool.mapTx.lookup h = some tx) : Holds env pool tx := by
  unfold Holds
  rw [hp.own_hash ht]
  exact ht

theorem Holds.mem_entries {tx : CTransaction} (h : Holds env pool tx) :
    tx ∈ pool.mapTx.entries.map fun e => e.2 :=
  List.mem_map.mpr ⟨⟨_, tx⟩, AList.mem_lookup_iff.mp h, rfl⟩

theorem Shrinks.holds (h : Shrinks pool pool') {tx : CTransaction} (ht : Holds env pool' tx) :
    Holds env pool tx := h _ _ ht

theorem PoolIndexed.spender_eq (hp : PoolIndexed env pool) {a b : CTransaction} {o : COutPoint}
    (ha : Holds env pool a) (hb : Holds env pool b) (hao : o ∈ a.prevouts)
    (hbo : o ∈ b.prevouts) : a = b := by
  have hh := hp.spender_unique ha hb hao hbo
  unfold Holds at ha hb
  rw [hh] at ha
  exact Option.some.inj (ha.symm.trans hb)

/-- An outpoint that `mapNextTx` does not have is spent by nobody in the pool. -/
theorem PoolIndexed.unclaimed (hp : PoolIndexed env pool) {o : COutPoint}
    (hnext : pool.mapNextTx.lookup o = none) {a : CTransaction} (ha : Holds env pool a) :
    o ∉ a.prevouts := by
  intro hmem
  obtain ⟨n, hn⟩ := mem_prevouts.mp hmem
  have hsome := (hp.inverse o _ n).mpr ⟨a, ha, hn⟩
  rw [hnext] at hsome
  cases hsome

/-- Otherwise the entry leads to the one that spends it. -/
theorem PoolIndexed.claimed (hp : PoolIndexed env pool) {o : COutPoint} {h : uint256} {n : Nat}
    (hnext : pool.mapNextTx.lookup o = some ⟨h, n⟩) :
    ∃ c, pool.lookup h = some c ∧ Holds env pool c ∧ o ∈ c.prevouts := by
  obtain ⟨c, hc, hspends⟩ := (hp.inverse o h n).mp hnext
  exact ⟨c, hc, hp.holds hc, mem_prevouts.mpr ⟨n, hspends⟩⟩

theorem ClosedBut.refl (env : Env) (D : List CTransaction) (pool : CTxMemPool) :
    ClosedBut env D pool pool := fun _ _ _ hb _ _ => hb

theorem ClosedBut.trans {p q r : CTxMemPool} (h : ClosedBut env D p q) (h' : ClosedBut env D q r)
    (hs : Shrinks q r) : ClosedBut env D p r := by
  intro a ha b hb hD hab
  exact h' a ha b (h a (hs.holds ha) b hb hD hab) hD hab

theorem ClosedBut.mono {D' : List CTransaction} (h : ClosedBut env D pool pool') (hD : D ⊆ D') :
    ClosedBut env D' pool pool' :=
  fun a ha b hb hb' hab => h a ha b hb (fun hm => hb' (hD hm)) hab

theorem holds_drop {tx a : CTransaction} :
    Holds env (pool.drop env tx) a ↔ Holds env pool a ∧ a.getHash env ≠ tx.getHash env := by
  unfold Holds
  rw [lookup_drop]
  split
  · rename_i he
    simp [he]
  · rename_i he
    simp [he]

end Basics

section Depth

variable {env : Env}

def above (rank : CTransaction → Nat) (pool : CTxMemPool) (n : Nat) : Finset CTransaction :=
  ((pool.mapTx.entries.map fun e => e.2).toFinset).filter fun t => n ≤ rank t

theorem mem_above {rank : CTransaction → Nat} {pool : CTxMemPool} {n : Nat} {t : CTransaction} :
    t ∈ above rank pool n ↔ (∃ h, pool.mapTx.lookup h = some t) ∧ n ≤ rank t := by
  unfold above
  rw [Finset.mem_filter, List.mem_toFinset, List.mem_map]
  apply and_congr_left
  intro _
  constructor
  · rintro ⟨⟨h, t⟩, he, rfl⟩
    exact ⟨h, AList.mem_lookup_iff.mpr he⟩
  · intro h
    obtain ⟨h, ht⟩ := h
    exact ⟨⟨h, t⟩, AList.mem_lookup_iff.mp ht, rfl⟩

theorem above_shrinks (rank : CTransaction → Nat) {pool pool' : CTxMemPool}
    (h : Shrinks pool pool') (n : Nat) :
    (above rank pool' n).card ≤ (above rank pool n).card := by
  apply Finset.card_le_card
  intro t ht
  obtain ⟨⟨k, hk⟩, hn⟩ := mem_above.mp ht
  exact mem_above.mpr ⟨⟨k, h k t hk⟩, hn⟩

/-- A transaction of higher rank has fewer above it. -/
theorem above_lt (rank : CTransaction → Nat) {pool : CTxMemPool} {c : CTransaction}
    (hc : Holds env pool c) {n : Nat} (hn : rank c < n) :
    (above rank pool n).card < (above rank pool (rank c)).card := by
  apply Finset.card_lt_card
  rw [Finset.ssubset_iff_of_subset]
  · exact ⟨c, mem_above.mpr ⟨⟨_, hc⟩, le_rfl⟩, fun h => absurd (mem_above.mp h).2 (by omega)⟩
  · intro t ht
    obtain ⟨hk, ht⟩ := mem_above.mp ht
    exact mem_above.mpr ⟨hk, by omega⟩

theorem above_le_size (rank : CTransaction → Nat) (pool : CTxMemPool) (n : Nat) :
    (above rank pool n).card ≤ pool.mapTx.keys.length := by
  calc (above rank pool n).card
      ≤ ((pool.mapTx.entries.map fun e => e.2).toFinset).card := Finset.card_filter_le _ _
    _ ≤ (pool.mapTx.entries.map fun e => e.2).length := List.toFinset_card_le _
    _ = pool.mapTx.keys.length := by simp [AList.keys, List.keys]

end Depth

section Removal

variable {env : Env} {txs : List CTransaction} {rank : CTransaction → Nat}

/-- `c` is gone, with every pool transaction that depends on it, and nothing was added. -/
structure CutOut (env : Env) (pool pool' : CTxMemPool) (c : CTransaction) : Prop
    extends Reduced env pool pool' where
  gone : ¬ Holds env pool' c
  closed : ClosedBut env [] pool pool'

/-- Once its spender is cut out, nobody spends an outpoint. -/
theorem CutOut.unclaimed {pool pool' : CTxMemPool} {c : CTransaction} (h : CutOut env pool pool' c)
    (hp : PoolIndexed env pool) (hc : Holds env pool c) {o : COutPoint} (ho : o ∈ c.prevouts)
    {a : CTransaction} (ha : Holds env pool' a) : o ∉ a.prevouts := by
  intro hao
  have heq : a = c := hp.spender_eq (h.shrinks.holds ha) hc hao ho
  exact h.gone (heq ▸ ha)

/-- The loop over the outputs of `c` leaves nobody who spends from it. -/
theorem removeSpenders_spec (hrank : ∀ a ∈ txs, ∀ b ∈ txs, SpendsFrom env a b → rank b < rank a)
    {depth : Nat} (ih : ∀ (pool : CTxMemPool) (c : CTransaction), PoolOf env txs pool →
      Holds env pool c → (above rank pool (rank c)).card ≤ depth →
      CutOut env pool (CTxMemPool.removeDepth env depth pool c true) c)
    {pool : CTxMemPool} {c : CTransaction} (hp : PoolOf env txs pool) (hc : Holds env pool c)
    (hdepth : (above rank pool (rank c)).card ≤ depth + 1) (k : Nat) (hk : k ≤ c.vout.length) :
    let q := (List.range k).foldl (CTxMemPool.removeSpender env depth (c.getHash env)) pool
    Reduced env pool q ∧ ClosedBut env [] pool q ∧
      ∀ i < k, ∀ a, Holds env q a → ⟨c.getHash env, UInt32.ofNat i⟩ ∉ a.prevouts := by
  induction k with
  | zero => exact ⟨⟨hp.indexed, .refl pool⟩, .refl env [] pool, by simp⟩
  | succ k ihk =>
    obtain ⟨hred, hclosed, hnone⟩ := ihk (by omega)
    simp only [List.range_succ, List.foldl_append, List.foldl_cons, List.foldl_nil]
    generalize (List.range k).foldl (CTxMemPool.removeSpender env depth (c.getHash env)) pool = q
      at hred hclosed hnone
    have hnone' : ∀ q', Shrinks q q' → (∀ a, Holds env q' a →
        ⟨c.getHash env, UInt32.ofNat k⟩ ∉ a.prevouts) → ∀ i < k + 1, ∀ a, Holds env q' a →
        ⟨c.getHash env, UInt32.ofNat i⟩ ∉ a.prevouts := by
      intro q' hs hlast i hi a ha
      rcases Nat.lt_succ_iff_lt_or_eq.mp hi with hlt | rfl
      · exact hnone i hlt a (hs.holds ha)
      · exact hlast a ha
    unfold CTxMemPool.removeSpender
    cases hnext : q.mapNextTx.lookup ⟨c.getHash env, UInt32.ofNat k⟩ with
    | none =>
      refine ⟨hred, hclosed, hnone' q (.refl q) ?_⟩
      intro a ha
      exact hred.indexed.unclaimed hnext ha
    | some inpoint =>
      obtain ⟨h, n⟩ := inpoint
      obtain ⟨spender, hlook, hholds, hmem⟩ := hred.indexed.claimed hnext
      have hfrom : SpendsFrom env spender c := by
        refine ⟨_, hmem, rfl, ?_⟩
        simp only [UInt32.toNat_ofNat']
        exact lt_of_le_of_lt (Nat.mod_le _ _) (by omega)
      have hqof : PoolOf env txs q := hred.poolOf hp
      have hhigher := hrank spender (hqof.mem hholds) c (hp.mem hc) hfrom
      have hcut := ih q spender hqof hholds (by
        have := above_shrinks rank hred.shrinks (rank spender)
        have := above_lt rank hc hhigher
        omega)
      simp only [hlook]
      refine ⟨⟨hcut.indexed, hred.shrinks.trans hcut.shrinks⟩,
        hclosed.trans hcut.closed hcut.shrinks, hnone' _ hcut.shrinks ?_⟩
      intro a ha
      exact hcut.unclaimed hred.indexed hholds hmem ha

/-- A recursive `remove` cuts the transaction out, as long as the descent is deep enough for
the pool transactions that rank above it. -/
theorem removeDepth_cutOut
    (hrank : ∀ a ∈ txs, ∀ b ∈ txs, SpendsFrom env a b → rank b < rank a) (depth : Nat) :
    ∀ (pool : CTxMemPool) (c : CTransaction), PoolOf env txs pool → Holds env pool c →
      (above rank pool (rank c)).card ≤ depth →
      CutOut env pool (CTxMemPool.removeDepth env depth pool c true) c := by
  induction depth with
  | zero =>
    intro pool c _ hc hdepth
    have hpos : 0 < (above rank pool (rank c)).card :=
      Finset.card_pos.mpr ⟨c, mem_above.mpr ⟨⟨_, hc⟩, le_rfl⟩⟩
    omega
  | succ depth ih =>
    intro pool c hp hc hdepth
    have hstored : ∀ t, pool.mapTx.lookup (c.getHash env) = some t → t = c :=
      fun t ht => Option.some.inj (ht.symm.trans hc)
    have hred := removeDepth_reduced (depth + 1) pool c true hp.indexed hstored
    obtain ⟨hq, hclosed, hnone⟩ := removeSpenders_spec hrank ih hp hc hdepth c.vout.length le_rfl
    rw [removeDepth_succ, if_pos (AList.lookup_isSome.mp (by rw [hc]; rfl))] at hred ⊢
    simp only [↓reduceIte] at hred ⊢
    refine ⟨hred, fun hgone => (holds_drop.mp hgone).2 rfl, ?_⟩
    intro a ha b hb hD hab
    obtain ⟨ha, _⟩ := holds_drop.mp ha
    refine holds_drop.mpr ⟨hclosed a ha b hb hD hab, ?_⟩
    -- otherwise `a` would still spend an output of `c`
    intro hhash
    obtain ⟨o, ho, hoh, hon⟩ := hab
    have hbc : b = c := hstored b (by rw [← hhash]; exact hb)
    rw [hbc] at hoh hon
    apply hnone o.n.toNat hon a ha
    rw [← hoh, UInt32.ofNat_toNat]
    exact ho

theorem remove_cutOut (hord : Ordered env txs) {pool : CTxMemPool} {c : CTransaction}
    (hp : PoolOf env txs pool) (hc : Holds env pool c) :
    CutOut env pool (pool.remove env c true) c := by
  obtain ⟨rank, hrank⟩ := hord
  apply removeDepth_cutOut hrank _ pool c hp hc
  have := above_le_size rank pool (rank c)
  omega

/-- A `remove` that is not recursive takes out one transaction. -/
theorem holds_remove {pool : CTxMemPool} {tx a : CTransaction} :
    Holds env (pool.remove env tx) a ↔ Holds env pool a ∧ a.getHash env ≠ tx.getHash env := by
  unfold CTxMemPool.remove
  rw [removeDepth_succ]
  split
  · exact holds_drop
  · rename_i hnot
    constructor
    · intro ha
      refine ⟨ha, fun hh => hnot ?_⟩
      rw [← hh]
      exact AList.lookup_isSome.mp (by rw [ha]; rfl)
    · exact fun h => h.1

/-- What `removeConflicts` leaves: nobody else who spends an outpoint of `tx`, and nobody who
depended on one that did. -/
theorem removeConflicts_spec (hord : Ordered env txs) {pool : CTxMemPool} (tx : CTransaction)
    (hp : PoolOf env txs pool) (l : List CTxIn) :
    let q := l.foldl (fun pool txin => pool.removeConflict env tx txin) pool
    Reduced env pool q ∧ ClosedBut env [] pool q ∧
      ∀ o ∈ l.map CTxIn.prevout, ∀ a, Holds env q a → a ≠ tx → o ∉ a.prevouts := by
  induction l using List.reverseRecOn with
  | nil => exact ⟨⟨hp.indexed, .refl pool⟩, .refl env [] pool, by simp⟩
  | append_singleton l txin ih =>
    obtain ⟨hred, hclosed, hnone⟩ := ih
    simp only [List.foldl_append, List.foldl_cons, List.foldl_nil]
    generalize l.foldl (fun pool txin => pool.removeConflict env tx txin) pool = q
      at hred hclosed hnone
    -- a further round only has to deal with its own outpoint
    have hnone' : ∀ q', Shrinks q q' → (∀ a, Holds env q' a → a ≠ tx →
        txin.prevout ∉ a.prevouts) → ∀ o ∈ (l ++ [txin]).map CTxIn.prevout, ∀ a,
        Holds env q' a → a ≠ tx → o ∉ a.prevouts := by
      intro q' hs hlast o ho a ha hne
      rw [List.map_append, List.mem_append] at ho
      rcases ho with ho | ho
      · exact hnone o ho a (hs.holds ha) hne
      · rw [List.map_singleton, List.mem_singleton] at ho
        rw [ho]
        exact hlast a ha hne
    unfold CTxMemPool.removeConflict
    cases hnext : q.mapNextTx.lookup txin.prevout with
    | none =>
      refine ⟨hred, hclosed, hnone' q (.refl q) ?_⟩
      intro a ha _
      exact hred.indexed.unclaimed hnext ha
    | some inpoint =>
      obtain ⟨h, n⟩ := inpoint
      obtain ⟨c, hlook, hholds, hmem⟩ := hred.indexed.claimed hnext
      simp only [hlook]
      by_cases hc : c = tx
      · rw [if_neg (by simpa using hc)]
        refine ⟨hred, hclosed, hnone' q (.refl q) ?_⟩
        intro a ha hne hao
        exact hne ((hred.indexed.spender_eq ha hholds hao hmem).trans hc)
      · rw [if_pos hc]
        have hcut := remove_cutOut hord (hred.poolOf hp) hholds
        refine ⟨⟨hcut.indexed, hred.shrinks.trans hcut.shrinks⟩,
          hclosed.trans hcut.closed hcut.shrinks, hnone' _ hcut.shrinks ?_⟩
        intro a ha _
        exact hcut.unclaimed hred.indexed hholds hmem ha

end Removal

end Triangles

/-! Whether the pool is clear of conflicts with the blocks that `SetBestChain` connects. -/

namespace Triangles

open Outcome CBlockIndex

def blocksOf (env : Env) (host : Host) (l : List CBlockIndex) : List CBlock :=
  l.filterMap fun pindex => (readBlockOf env host pindex).toOption

def furtherBlocks (env : Env) (host : Host) : List CBlockIndex → State → List CBlock
  | [], _ => []
  | pindex :: rest, s =>
    match readBlockOf env host pindex with
    | .error _ => []
    | .ok block =>
      match setBestChainInner env host block pindex s.txnBegin with
      | .error _ _ => []
      | .ok _ t => block :: furtherBlocks env host rest t

/-- What a call of `SetBestChain` puts back into the pool, and which blocks it connects in
which way. -/
structure PoolPlan where
  vResurrect : List CTransaction := []
  byReorganize : List CBlock := []
  byInner : List CBlock := []

def poolPlan (env : Env) (host : Host) (block : CBlock) (pindexNew : CBlockIndex) (s : State) :
    PoolPlan :=
  if s.pindexGenesisBlock = none ∧ block.getHash env = hashGenesisBlock then {}
  else if block.hashPrevBlock = s.hashBestChain then { byInner := [block] }
  else
    match s.pindexBest with
    | none => {}
    | some pindexBest =>
      let (pindexIntermediate, vpindexSecondary) := pindexNew.postpone pindexBest.nChainTrust
      match pindexBest.findFork pindexIntermediate with
      | .error _ => {}
      | .ok pfork =>
        { vResurrect := (blocksOf env host (downTo pfork pindexBest)).flatMap fun b =>
            b.vtx.filter fun tx => !(tx.isCoinBase || tx.isCoinStake)
          byReorganize := blocksOf env host (downTo pfork pindexIntermediate).reverse
          byInner := match reorganize env host pindexBest pindexIntermediate s.txnBegin with
            | .error _ _ => []
            | .ok _ t => furtherBlocks env host vpindexSecondary.reverse t }

namespace PoolPlan

def deleted (plan : PoolPlan) : List CTransaction := plan.byReorganize.flatMap CBlock.vtx

def extended (plan : PoolPlan) : List CTransaction := plan.byInner.flatMap CBlock.vtx

def connected (plan : PoolPlan) : List CTransaction := plan.deleted ++ plan.extended

end PoolPlan

def resurrect (env : Env) (vResurrect : List CTransaction) (pool : CTxMemPool) : CTxMemPool :=
  vResurrect.foldl (fun pool tx =>
    match pool.acceptUnfetched env tx with
    | .ok pool => pool
    | .error _ => pool) pool

def deleteAll (env : Env) (vDelete : List CTransaction) (pool : CTxMemPool) : CTxMemPool :=
  vDelete.foldl (fun pool tx => (pool.remove env tx).removeConflicts env tx) pool

def removeAll (env : Env) (vtx : List CTransaction) (pool : CTxMemPool) : CTxMemPool :=
  vtx.foldl (fun pool tx => pool.remove env tx) pool

/-- `a` depends on `b` through pool transactions that are not connected themselves. -/
def Descends (env : Env) (pool : CTxMemPool) (connected : List CTransaction) :
    CTransaction → CTransaction → Prop :=
  Relation.TransGen fun a b => Holds env pool b ∧ b ∉ connected ∧ SpendsFrom env a b

/-- No transaction of `pool'` spends an outpoint that a connected one spends, or depends on a
transaction of `pool` that did. -/
structure PoolClear (env : Env) (connected : List CTransaction) (pool pool' : CTxMemPool) :
    Prop where
  no_conflict : ∀ a, Holds env pool' a → ∀ x ∈ connected, ∀ o ∈ a.prevouts, o ∉ x.prevouts
  no_descendant : ∀ a, Holds env pool' a → ∀ q, Descends env pool connected a q →
    ∀ x ∈ connected, ∀ o ∈ q.prevouts, o ∉ x.prevouts

/-- No pool transaction spends an outpoint that is already spent in the best chain. -/
def PoolUnspent (env : Env) (s : State) : Prop :=
  ∀ a, Holds env s.mempool a → ∀ o ∈ a.prevouts,
    ((s.txdb.readTxIndex o.hash).all fun txindex =>
      (txindex.vSpent[o.n.toNat]?).all CDiskTxPos.isNull) = true

section Update

variable {env : Env} {txs : List CTransaction}

theorem updatePool_eq (vResurrect vDelete : List CTransaction) (pool : CTxMemPool) :
    updatePool env vResurrect vDelete pool =
      deleteAll env vDelete (resurrect env vResurrect pool) := rfl

theorem resurrect_poolOf {vResurrect : List CTransaction} (hR : vResurrect ⊆ txs)
    {pool : CTxMemPool} (hp : PoolOf env txs pool) :
    PoolOf env txs (resurrect env vResurrect pool) := by
  refine List.foldlRecOn (motive := PoolOf env txs) _ _ hp ?_
  intro q hq tx htx
  split
  · rename_i q' hok
    obtain ⟨hadm, rfl⟩ := acceptUnfetched_ok hok
    exact hq.add hadm (hR htx)
  · exact hq

theorem remove_poolOf (hno : NoCollision env txs) {pool : CTxMemPool} (hp : PoolOf env txs pool)
    {tx : CTransaction} (htx : tx ∈ txs) : Reduced env pool (pool.remove env tx) := by
  apply remove_reduced pool tx false hp.indexed
  intro t ht
  exact hno t (hp.mem ht) tx htx (hp.indexed.own_hash ht)

/-- Removing a connected transaction takes nothing along that was not connected. -/
theorem remove_closedBut (hno : NoCollision env txs) {D : List CTransaction} (hD : D ⊆ txs)
    {pool : CTxMemPool} (hp : PoolOf env txs pool) {tx : CTransaction} (htx : tx ∈ D) :
    ClosedBut env D pool (pool.remove env tx) := by
  intro a _ b hb hbD _
  refine holds_remove.mpr ⟨hb, fun hh => hbD ?_⟩
  rw [hno b (hp.mem hb) tx (hD htx) hh]
  exact htx

/-- The delete loop leaves nobody who spends an outpoint of a deleted transaction. -/
theorem deleteAll_spec (hno : NoCollision env txs) (hord : Ordered env txs)
    {D : List CTransaction} (hD : D ⊆ txs) {pool : CTxMemPool} (hp : PoolOf env txs pool)
    (l : List CTransaction) (hl : l ⊆ D) :
    Reduced env pool (deleteAll env l pool) ∧ ClosedBut env D pool (deleteAll env l pool) ∧
      ∀ x ∈ l, ∀ a, Holds env (deleteAll env l pool) a → ∀ o ∈ a.prevouts, o ∉ x.prevouts := by
  induction l using List.reverseRecOn with
  | nil => exact ⟨⟨hp.indexed, .refl pool⟩, .refl env D pool, by simp⟩
  | append_singleton l x ih =>
    obtain ⟨hred, hclosed, hnone⟩ := ih fun _ ht => hl (List.mem_append_left _ ht)
    have hx : x ∈ D := hl (by simp)
    have hq := hred.poolOf hp
    have hremove := remove_poolOf hno hq (hD hx)
    obtain ⟨hconf, hcclosed, hcnone⟩ :=
      removeConflicts_spec hord x (hremove.poolOf hq) x.vin
    unfold deleteAll at hred hclosed hnone hq hremove hconf hcclosed hcnone ⊢
    rw [List.foldl_append, List.foldl_cons, List.foldl_nil]
    have hshrinks := hremove.shrinks.trans hconf.shrinks
    refine ⟨⟨hconf.indexed, hred.shrinks.trans hshrinks⟩, ?_, ?_⟩
    · exact hclosed.trans ((remove_closedBut hno hD hq hx).trans (hcclosed.mono (by simp))
        hconf.shrinks) hshrinks
    · intro y hy a ha o hao hoy
      rcases List.mem_append.mp hy with hy | hy
      · exact hnone y hy a (hshrinks.holds ha) o hao hoy
      · rw [List.mem_singleton] at hy
        rw [hy] at hoy
        have hne : a ≠ x := by
          rintro rfl
          exact (holds_remove.mp (hconf.shrinks.holds ha)).2 rfl
        exact hcnone o hoy a ha hne hao

theorem holds_removeAll {l : List CTransaction} {pool : CTxMemPool} {a : CTransaction} :
    Holds env (removeAll env l pool) a ↔
      Holds env pool a ∧ a.getHash env ∉ l.map (CTransaction.getHash env) := by
  unfold removeAll
  induction l generalizing pool with
  | nil => simp
  | cons x l ih =>
    rw [List.foldl_cons, ih, holds_remove, List.map_cons, List.mem_cons, not_or, and_assoc]

theorem removeAll_closedBut (hno : NoCollision env txs) {D : List CTransaction} (hD : D ⊆ txs)
    {pool : CTxMemPool} (hp : PoolOf env txs pool) {l : List CTransaction} (hl : l ⊆ D) :
    ClosedBut env D pool (removeAll env l pool) := by
  intro a _ b hb hbD _
  refine holds_removeAll.mpr ⟨hb, fun hh => hbD ?_⟩
  obtain ⟨x, hx, hhash⟩ := List.mem_map.mp hh
  rw [hno b (hp.mem hb) x (hD (hl hx)) hhash.symm]
  exact hl hx

/-- Closed under what it depends on: a transaction that stays keeps its ancestors. -/
theorem ClosedBut.descends {D : List CTransaction} {pool pool' : CTxMemPool}
    (h : ClosedBut env D pool pool') {a q : CTransaction} (ha : Holds env pool' a)
    (hd : Descends env pool D a q) : Holds env pool' q := by
  induction hd with
  | single hstep => exact h a ha _ hstep.1 hstep.2.1 hstep.2.2
  | tail _ hstep ih => exact h _ ih _ hstep.1 hstep.2.1 hstep.2.2

/-- The pool after the call is clear exactly when no transaction that is left for the blocks
connected one by one, and is not in them, spends an outpoint they spend. -/
theorem poolClear_iff (hno : NoCollision env txs) (hord : Ordered env txs) {pool : CTxMemPool}
    (hp : PoolOf env txs pool) (deleted extended : List CTransaction)
    (hD : deleted ++ extended ⊆ txs) :
    PoolClear env (deleted ++ extended) pool
        (removeAll env extended (deleteAll env deleted pool)) ↔
      ∀ a, Holds env (deleteAll env deleted pool) a → a ∉ extended →
        ∀ x ∈ extended, ∀ o ∈ a.prevouts, o ∉ x.prevouts := by
  obtain ⟨hred, hclosed, hnone⟩ := deleteAll_spec hno hord hD hp deleted (List.subset_append_left _ _)
  have hof := hred.poolOf hp
  have hmem : ∀ a, Holds env (deleteAll env deleted pool) a →
      (a.getHash env ∉ extended.map (CTransaction.getHash env) ↔ a ∉ extended) := by
    intro a ha
    apply not_congr
    rw [List.mem_map]
    constructor
    · intro h
      obtain ⟨x, hx, hh⟩ := h
      rw [hno a (hof.mem ha) x (hD (List.mem_append_right _ hx)) hh.symm]
      exact hx
    · exact fun h => ⟨a, h, rfl⟩
  constructor
  · intro hclear a ha hnot x hx
    have ha' := holds_removeAll.mpr ⟨ha, (hmem a ha).mpr hnot⟩
    exact hclear.no_conflict a ha' x (List.mem_append_right _ hx)
  · intro hcond
    have hconflict : ∀ a, Holds env (removeAll env extended (deleteAll env deleted pool)) a →
        ∀ x ∈ deleted ++ extended, ∀ o ∈ a.prevouts, o ∉ x.prevouts := by
      intro a ha x hx o ho
      obtain ⟨ha, hnot⟩ := holds_removeAll.mp ha
      rcases List.mem_append.mp hx with hx | hx
      · exact hnone x hx a ha o ho
      · exact hcond a ha ((hmem a ha).mp hnot) x hx o ho
    refine ⟨hconflict, ?_⟩
    intro a ha q hq
    have hshrinks : Shrinks (deleteAll env deleted pool)
        (removeAll env extended (deleteAll env deleted pool)) := by
      refine List.foldlRecOn (motive := fun q => Reduced env (deleteAll env deleted pool) q) _ _
        ⟨hof.indexed, .refl _⟩ ?_ |>.shrinks
      intro r hr x hx
      have hrem := remove_poolOf hno (hr.poolOf hof) (hD (List.mem_append_right _ hx))
      exact ⟨hrem.indexed, hr.shrinks.trans hrem.shrinks⟩
    have hall := hclosed.trans (removeAll_closedBut hno hD hof (List.subset_append_right _ _))
      hshrinks
    exact hconflict q (hall.descends ha hq)

end Update

section Chain

variable {env : Env} {host : Host}

/-- What a loop over blocks of a branch collects. -/
theorem rounds_collect {g : CBlock → List CTransaction}
    {step : List CTransaction → CBlockIndex → Node (List CTransaction)}
    (hstep : ∀ {v w p s t}, step v p s = .ok w t →
      ∃ block, readBlockOf env host p = .ok block ∧ v ++ g block = w)
    {l : List CBlockIndex} {v w : List CTransaction} {s t : State}
    (h : l.foldlM step v s = .ok w t) : w = v ++ (blocksOf env host l).flatMap g := by
  induction l generalizing v s with
  | nil =>
    cases h
    simp [blocksOf]
  | cons pindex l ih =>
    obtain ⟨u, r, hround, h⟩ := run_bind_ok.mp h
    obtain ⟨block, hread, rfl⟩ := hstep hround
    rw [ih h, blocksOf, blocksOf, List.filterMap_cons, hread]
    simp [Except.toOption]

theorem disconnectRounds_resurrect {l : List CBlockIndex} {v w : List CTransaction} {s t : State}
    (h : l.foldlM (disconnectRound env host) v s = .ok w t) :
    w = v ++ (blocksOf env host l).flatMap fun b =>
      b.vtx.filter fun tx => !(tx.isCoinBase || tx.isCoinStake) := by
  refine rounds_collect (fun hround => ?_) h
  obtain ⟨block, hread, _, hw⟩ := round_ok.mp hround
  exact ⟨block, hread, hw⟩

theorem connectRounds_delete {l : List CBlockIndex} {v w : List CTransaction} {s t : State}
    (h : l.foldlM (connectRound env host) v s = .ok w t) :
    w = v ++ (blocksOf env host l).flatMap CBlock.vtx := by
  refine rounds_collect (fun hround => ?_) h
  obtain ⟨block, hread, _, hw⟩ := round_ok.mp hround
  exact ⟨block, hread, hw⟩

theorem foldl_link_mempool (l : List CBlockIndex) (s : State) :
    (l.foldl State.link s).mempool = s.mempool := by
  rw [foldl_link_eq]

theorem foldl_unlink_mempool (l : List CBlockIndex) (s : State) :
    (l.foldl State.unlink s).mempool = s.mempool := by
  rw [foldl_unlink_eq]

theorem reorganize_mempool {b m pfork : CBlockIndex} {s t : State}
    (hfork : b.findFork m = .ok pfork) (h : reorganize env host b m s = .ok () t) :
    t.mempool = updatePool env
      ((blocksOf env host (downTo pfork b)).flatMap fun b =>
        b.vtx.filter fun tx => !(tx.isCoinBase || tx.isCoinStake))
      ((blocksOf env host (downTo pfork m).reverse).flatMap CBlock.vtx) s.mempool := by
  obtain ⟨pfork', vResurrect, vDelete, s₁, s₂, hfork', hd, hc, rfl⟩ := reorganize_ok h
  rw [hfork] at hfork'
  obtain rfl := Except.ok.inj hfork'
  have hp := ((Keeps.foldlM Pending.refl Pending.trans disconnectRound_pending _ _).ok hd).trans
    _ _ _ ((Keeps.foldlM Pending.refl Pending.trans connectRound_pending _ _).ok hc)
  rw [disconnectRounds_resurrect hd, connectRounds_delete hc]
  simp only [afterSwitch, foldl_link_mempool, foldl_unlink_mempool, List.nil_append, hp.mempool]

theorem setBestChainInner_mempool {block : CBlock} {pindex : CBlockIndex} {s t : State}
    (h : setBestChainInner env host block pindex s = .ok () t) :
    t.mempool = removeAll env block.vtx s.mempool := by
  obtain ⟨s₁, hc, rfl⟩ := setBestChainInner_ok h
  have hp := (connectBlock_pending block pindex false).ok hc
  rw [← hp.mempool]
  unfold afterExtend State.link removeAll
  cases pindex.pprev <;> rfl

theorem connectFurther_mempool (l : List CBlockIndex) (s : State) :
    (connectFurther env host l s).mempool =
      removeAll env ((furtherBlocks env host l s).flatMap CBlock.vtx) s.mempool := by
  induction l generalizing s with
  | nil => rfl
  | cons pindex l ih =>
    rw [connectFurther, furtherBlocks]
    cases readBlockOf env host pindex with
    | error e => rfl
    | ok block =>
      cases hi : setBestChainInner env host block pindex s.txnBegin with
      | error e t =>
        simp only [hi]
        exact (setBestChainInner_error rfl hi).mempool
      | ok u t =>
        simp only [hi]
        rw [ih, setBestChainInner_mempool hi, List.flatMap_cons, removeAll, removeAll, removeAll,
          List.foldl_append]
        rfl

theorem setBestChain_mempool {block : CBlock} {pindexNew : CBlockIndex} {s t : State}
    (h : setBestChain env host block pindexNew s = .ok () t) :
    t.mempool = removeAll env (poolPlan env host block pindexNew s).extended
      (deleteAll env (poolPlan env host block pindexNew s).deleted
        (resurrect env (poolPlan env host block pindexNew s).vResurrect s.mempool)) := by
  obtain ⟨r, hmove, rfl⟩ := setBestChain_ok h
  change r.mempool = _
  unfold poolPlan
  cases moveBestChain_ok hmove with
  | start hfirst ht =>
    rw [if_pos hfirst, ht]
    rfl
  | extend hfirst hext hinner =>
    have hinner := setBestChainInner_mempool hinner
    rw [if_neg hfirst, if_pos hext, PoolPlan.extended, List.flatMap_singleton]
    exact hinner
  | switch hfirst hext b r' hbest hr ht =>
    obtain ⟨pfork, _, _, _, _, hfork, _⟩ := reorganize_ok hr
    simp only [if_neg hfirst, if_neg hext, hbest, hfork, hr]
    rw [ht, connectFurther_mempool, reorganize_mempool hfork hr, updatePool_eq]
    rfl

/-- After a successful `SetBestChain` the pool is clear of conflicts with the newly connected
blocks exactly when `SetBestChainInner`, which removes no conflicts, met none: no transaction
that `Reorganize` left in the pool and that is not in a block connected one by one spends an
outpoint that such a block spends. -/
theorem pool_clear_of_chain_iff {block : CBlock} {pindexNew : CBlockIndex} {s t : State}
    (h : setBestChain env host block pindexNew s = .ok () t) {ops : List PoolOp}
    (hpool : s.mempool = runPool env ops) {plan : PoolPlan}
    (hplan : poolPlan env host block pindexNew s = plan)
    (hno : NoCollision env (ops.flatMap PoolOp.txs ++ plan.vResurrect ++ plan.connected))
    (hord : Ordered env (ops.flatMap PoolOp.txs ++ plan.vResurrect ++ plan.connected)) :
    PoolClear env plan.connected (resurrect env plan.vResurrect s.mempool) t.mempool ↔
      ∀ a, Holds env (updatePool env plan.vResurrect plan.deleted s.mempool) a →
        a ∉ plan.extended → ∀ x ∈ plan.extended, ∀ o ∈ a.prevouts, o ∉ x.prevouts := by
  have hof : PoolOf env (ops.flatMap PoolOp.txs ++ plan.vResurrect ++ plan.connected)
      s.mempool := by
    have hops : NoCollision env (ops.flatMap PoolOp.txs) := fun a ha b hb =>
      hno a (List.mem_append_left _ (List.mem_append_left _ ha)) b
        (List.mem_append_left _ (List.mem_append_left _ hb))
    have hrun := runPool_poolOf ops hops
    rw [hpool]
    exact ⟨hrun.indexed,
      fun ht => List.mem_append_left _ (List.mem_append_left _ (hrun.mem ht))⟩
  have hsub : plan.vResurrect ⊆ ops.flatMap PoolOp.txs ++ plan.vResurrect ++ plan.connected :=
    fun _ ht => List.mem_append_left _ (List.mem_append_right _ ht)
  have hres := resurrect_poolOf hsub hof
  rw [setBestChain_mempool h, hplan, updatePool_eq]
  exact poolClear_iff hno hord hres plan.deleted plan.extended (List.subset_append_right _ _)

end Chain

namespace Sample

/-! A pool with a payment and one that spends its change; blocks that confirm the payment, or a
rival that spends the same coin. -/

def payBlock : CBlock := blockOf hashGenesisBlock 30 [coinbase 20 0, payment]

def rivalBlock : CBlock := blockOf hashGenesisBlock 31 [coinbase 20 0, rival]

def payIndex : CBlockIndex := .child (fieldsOf 30 30 400 2) genesisIndex

def rivalIndex : CBlockIndex := .child (fieldsOf 31 31 800 2) genesisIndex

def poolEnv : Env :=
  env [(fundIndex, fundBlock), (payIndex, payBlock), (rivalIndex, rivalBlock)]

def filling : List PoolOp := [.accept poolCtx payment true, .accept poolCtx change true]

def poolNode : State := { fundedNode with mempool := runPool poolEnv filling }

end Sample

theorem payBlock_clears_pool :
    ∃ t, setBestChain Sample.poolEnv Sample.host Sample.payBlock Sample.payIndex Sample.poolNode =
        .ok () t ∧ Holds Sample.poolEnv t.mempool Sample.change ∧
      PoolClear Sample.poolEnv Sample.payBlock.vtx Sample.poolNode.mempool t.mempool := by
  obtain ⟨_, h⟩ := ok_of_not_fails (x := setBestChain Sample.poolEnv Sample.host Sample.payBlock
    Sample.payIndex) (s := Sample.poolNode) (by decide)
  have hplan : poolPlan Sample.poolEnv Sample.host Sample.payBlock Sample.payIndex
      Sample.poolNode = { byInner := [Sample.payBlock] } := by
    unfold poolPlan
    rw [if_neg (by decide), if_pos (by decide)]
  refine ⟨_, h, by decide, ?_⟩
  have hpool : Sample.poolNode.mempool = runPool Sample.poolEnv Sample.filling := rfl
  have hclear := pool_clear_of_chain_iff h hpool hplan (by decide)
    ⟨fun tx => tx.nTime.toNat, by decide⟩
  refine hclear.mpr fun a ha => ?_
  have hall : ∀ a ∈ Sample.poolNode.mempool.mapTx.entries.map (fun e => e.2),
      a ∉ Sample.payBlock.vtx → ∀ x ∈ Sample.payBlock.vtx, ∀ o ∈ a.prevouts,
        o ∉ x.prevouts := by decide
  exact hall a ha.mem_entries

/-- The rival is confirmed by a block on top of the chain: the payment stays in the pool. -/
theorem rivalBlock_leaves_conflict :
    PoolUnspent Sample.poolEnv Sample.poolNode ∧
    ∃ t, setBestChain Sample.poolEnv Sample.host Sample.rivalBlock Sample.rivalIndex
        Sample.poolNode = .ok () t ∧ Holds Sample.poolEnv t.mempool Sample.payment ∧
      ¬ PoolClear Sample.poolEnv Sample.rivalBlock.vtx Sample.poolNode.mempool t.mempool := by
  constructor
  · intro a ha
    have hall : ∀ a ∈ Sample.poolNode.mempool.mapTx.entries.map (fun e => e.2),
        ∀ o ∈ a.prevouts, ((Sample.poolNode.txdb.readTxIndex o.hash).all fun txindex =>
          (txindex.vSpent[o.n.toNat]?).all CDiskTxPos.isNull) = true := by decide
    exact hall a ha.mem_entries
  · obtain ⟨_, h⟩ := ok_of_not_fails (x := setBestChain Sample.poolEnv Sample.host
      Sample.rivalBlock Sample.rivalIndex) (s := Sample.poolNode) (by decide)
    have hholds : Holds Sample.poolEnv (leaves (setBestChain Sample.poolEnv Sample.host
        Sample.rivalBlock Sample.rivalIndex) Sample.poolNode).mempool Sample.payment := by
      decide
    refine ⟨_, h, hholds, fun hclear => ?_⟩
    exact hclear.no_conflict _ hholds Sample.rival (by decide) ⟨10, 0⟩ (by decide)
      (by decide)

end Triangles
