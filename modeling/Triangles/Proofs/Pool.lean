import Triangles.Lib.Assoc
import Triangles.Model.PoolAccept
import Triangles.Proofs.Undo

/-! The two maps of the memory pool: which transactions it holds, and which input of them spends
an outpoint. -/

namespace Triangles

open Outcome

/-- `mapTx` is keyed by hash and `mapNextTx` is exactly the inverse of its inputs. -/
structure PoolIndexed (env : Env) (pool : CTxMemPool) : Prop where
  own_hash : ∀ {h tx}, pool.mapTx.lookup h = some tx → tx.getHash env = h
  inverse : ∀ o h n, pool.mapNextTx.lookup o = some ⟨h, n⟩ ↔
    ∃ tx, pool.mapTx.lookup h = some tx ∧ (tx.vin[n]?).map CTxIn.prevout = some o

/-- Nothing was added on the way from one pool to the other. -/
def Shrinks (pool pool' : CTxMemPool) : Prop :=
  ∀ h tx, pool'.mapTx.lookup h = some tx → pool.mapTx.lookup h = some tx

inductive PoolOp where
  | accept (ctx : AcceptCtx) (tx : CTransaction) (fCheckInputs : Bool)
  | remove (tx : CTransaction) (fRecursive : Bool)
  | removeConflicts (tx : CTransaction)
  | clear

namespace PoolOp

/-- A call on the pool; a transaction that is not accepted leaves it as it was. -/
def apply (env : Env) (pool : CTxMemPool) : PoolOp → CTxMemPool
  | accept ctx tx fCheckInputs =>
    match CTxMemPool.accept env { ctx with mempool := pool } tx fCheckInputs with
    | .ok pool => pool
    | .error _ => pool
  | remove tx fRecursive => pool.remove env tx fRecursive
  | removeConflicts tx => pool.removeConflicts env tx
  | clear => pool.clear

def txs : PoolOp → List CTransaction
  | accept _ tx _ => [tx]
  | remove tx _ => [tx]
  | removeConflicts tx => [tx]
  | clear => []

end PoolOp

def runPool (env : Env) (ops : List PoolOp) : CTxMemPool := ops.foldl (PoolOp.apply env) .empty

/-- No two of these transactions have the same hash. -/
def NoCollision (env : Env) (txs : List CTransaction) : Prop :=
  ∀ a ∈ txs, ∀ b ∈ txs, a.getHash env = b.getHash env → a = b

instance (env : Env) (txs : List CTransaction) : Decidable (NoCollision env txs) :=
  inferInstanceAs (Decidable (∀ a ∈ txs, ∀ b ∈ txs, a.getHash env = b.getHash env → a = b))

section Maps

variable {env : Env} {pool pool' : CTxMemPool} {tx : CTransaction}

theorem Shrinks.refl (pool : CTxMemPool) : Shrinks pool pool := fun _ _ h => h

theorem Shrinks.trans {p q r : CTxMemPool} (h : Shrinks p q) (h' : Shrinks q r) : Shrinks p r :=
  fun k tx hr => h k tx (h' k tx hr)

theorem empty_indexed (env : Env) : PoolIndexed env .empty := by
  constructor <;> simp [CTxMemPool.empty]

theorem mem_prevouts {o : COutPoint} :
    o ∈ tx.vin.map CTxIn.prevout ↔ ∃ n : Nat, (tx.vin[n]?).map CTxIn.prevout = some o := by
  rw [List.mem_iff_getElem?]
  simp

theorem PoolIndexed.spender_unique (hp : PoolIndexed env pool) {h h' : uint256}
    {a b : CTransaction} {o : COutPoint} (ha : pool.mapTx.lookup h = some a)
    (hb : pool.mapTx.lookup h' = some b) (hao : o ∈ a.vin.map CTxIn.prevout)
    (hbo : o ∈ b.vin.map CTxIn.prevout) : h = h' := by
  obtain ⟨n, hn⟩ := mem_prevouts.mp hao
  obtain ⟨m, hm⟩ := mem_prevouts.mp hbo
  have hfirst := (hp.inverse o h n).mpr ⟨a, ha, hn⟩
  rw [(hp.inverse o h' m).mpr ⟨b, hb, hm⟩] at hfirst
  simp only [Option.some.injEq, CInPoint.mk.injEq] at hfirst
  exact hfirst.1.symm

theorem prevouts_nodup {u : Unit} (h : tx.checkTransaction = .ok u) :
    (tx.vin.map CTxIn.prevout).Nodup := by
  simp only [CTransaction.checkTransaction, bind_ok, check_ok, decide_eq_true_eq] at h
  obtain ⟨_, _, _, _, _, _, _, _, _, hnodup, _⟩ := h
  exact hnodup

/-- Adding a transaction whose outpoints nobody claims. -/
theorem PoolIndexed.add (hp : PoolIndexed env pool) (ha : Admissible env pool tx) :
    PoolIndexed env (pool.addUnchecked (tx.getHash env) tx) := by
  obtain ⟨_, hchecked⟩ := ha.checked
  have hkeys : (tx.vin.zipIdx.map fun c => c.1.prevout).Nodup := by
    have hzip : (tx.vin.zipIdx.map fun c => c.1.prevout) = tx.vin.map CTxIn.prevout := by
      rw [← Function.comp_def CTxIn.prevout Prod.fst, ← List.map_map, List.zipIdx_map_fst]
    rw [hzip]
    exact prevouts_nodup hchecked
  constructor
  · intro h t ht
    simp only [CTxMemPool.addUnchecked, Assoc.lookup_insert_eq] at ht
    split at ht
    · rename_i hh
      rw [← Option.some.inj ht, hh]
    · exact hp.own_hash ht
  · intro o h n
    simp only [CTxMemPool.addUnchecked, Assoc.lookup_insert_eq]
    rw [Assoc.lookup_foldl_insert (fun c : CTxIn × Nat => c.1.prevout)
      (fun c => CInPoint.mk (tx.getHash env) c.2) _ hkeys]
    constructor
    · rintro (⟨⟨txin, i⟩, hmem, ho, hval⟩ | ⟨hnot, hold⟩)
      · simp only [CInPoint.mk.injEq] at hval
        obtain ⟨rfl, rfl⟩ := hval
        have hget := List.mem_zipIdx_iff_getElem?.mp hmem
        exact ⟨tx, by simp, by simpa [hget] using ho⟩
      · obtain ⟨t, ht, hspend⟩ := (hp.inverse o h n).mp hold
        have hne : h ≠ tx.getHash env := by
          rintro rfl
          exact ha.new (AList.lookup_isSome.mp (by rw [ht]; rfl))
        exact ⟨t, by rw [if_neg hne]; exact ht, hspend⟩
    · intro hspender
      obtain ⟨t, ht, hspend⟩ := hspender
      split at ht
      · rename_i hh
        obtain rfl := Option.some.inj ht
        obtain ⟨txin, hget, ho⟩ := Option.map_eq_some_iff.mp hspend
        exact .inl ⟨(txin, n), List.mem_zipIdx_iff_getElem?.mpr hget, ho, by rw [hh]⟩
      · have hold := (hp.inverse o h n).mpr ⟨t, ht, hspend⟩
        refine .inr ⟨?_, hold⟩
        intro hmem
        obtain ⟨⟨txin, i⟩, hin, rfl⟩ := List.mem_map.mp hmem
        have hget := List.mem_zipIdx_iff_getElem?.mp hin
        exact ha.unclaimed txin (List.mem_of_getElem? hget)
          (AList.lookup_isSome.mp (by rw [hold]; rfl))

def CTxMemPool.drop (env : Env) (pool : CTxMemPool) (tx : CTransaction) : CTxMemPool where
  mapTx := pool.mapTx.erase (tx.getHash env)
  mapNextTx := tx.vin.foldl (fun m txin => m.erase txin.prevout) pool.mapNextTx

theorem lookup_drop (pool : CTxMemPool) (tx : CTransaction) (h : uint256) :
    (pool.drop env tx).mapTx.lookup h =
      if h = tx.getHash env then none else pool.mapTx.lookup h :=
  Assoc.lookup_erase_eq _ _ _

theorem drop_shrinks (pool : CTxMemPool) (tx : CTransaction) : Shrinks pool (pool.drop env tx) := by
  intro h t ht
  rw [lookup_drop] at ht
  split at ht
  · cases ht
  · exact ht

/-- Dropping a transaction whose outpoints no other pool transaction claims. -/
theorem PoolIndexed.drop (hp : PoolIndexed env pool)
    (hclaims : ∀ h t, pool.mapTx.lookup h = some t → ∀ o ∈ tx.vin.map CTxIn.prevout,
      o ∈ t.vin.map CTxIn.prevout → h = tx.getHash env)
    (hstored : ∀ t, pool.mapTx.lookup (tx.getHash env) = some t → t = tx) :
    PoolIndexed env (pool.drop env tx) := by
  constructor
  · exact fun ht => hp.own_hash (drop_shrinks pool tx _ _ ht)
  · intro o h n
    rw [lookup_drop]
    unfold CTxMemPool.drop
    rw [Assoc.lookup_foldl_erase CTxIn.prevout]
    by_cases ho : o ∈ tx.vin.map CTxIn.prevout
    · rw [if_pos ho]
      simp only [reduceCtorEq, false_iff, not_exists, not_and]
      intro t ht hspend
      split at ht
      · cases ht
      · rename_i hne
        exact hne (hclaims h t ht o ho (mem_prevouts.mpr ⟨n, hspend⟩))
    · rw [if_neg ho, hp.inverse]
      constructor
      · intro hspender
        obtain ⟨t, ht, hspend⟩ := hspender
        have hne : h ≠ tx.getHash env := by
          rintro rfl
          obtain rfl := hstored t ht
          exact ho (mem_prevouts.mpr ⟨n, hspend⟩)
        exact ⟨t, by rw [if_neg hne]; exact ht, hspend⟩
      · intro hspender
        obtain ⟨t, ht, hspend⟩ := hspender
        split at ht
        · cases ht
        · exact ⟨t, ht, hspend⟩

end Maps

section Removal

variable {env : Env}

/-- The pool was indexed and is still, and nothing was added. -/
structure Reduced (env : Env) (pool pool' : CTxMemPool) : Prop where
  indexed : PoolIndexed env pool'
  shrinks : Shrinks pool pool'

def CTxMemPool.removeSpender (env : Env) (depth : Nat) (hash : uint256) (pool : CTxMemPool)
    (i : Nat) : CTxMemPool :=
  match pool.mapNextTx.lookup ⟨hash, UInt32.ofNat i⟩ with
  | none => pool
  | some inpoint =>
    match pool.lookup inpoint.ptx with
    | none => pool
    | some spender => CTxMemPool.removeDepth env depth pool spender true

theorem removeDepth_succ (depth : Nat) (pool : CTxMemPool) (tx : CTransaction)
    (fRecursive : Bool) :
    CTxMemPool.removeDepth env (depth + 1) pool tx fRecursive =
      if tx.getHash env ∈ pool.mapTx then
        (if fRecursive then (List.range tx.vout.length).foldl
            (CTxMemPool.removeSpender env depth (tx.getHash env)) pool
          else pool).drop env tx
      else pool := rfl

/-- `remove`, however deep it descends, keeps the two maps in step. -/
theorem removeDepth_reduced (depth : Nat) (pool : CTxMemPool) (tx : CTransaction)
    (fRecursive : Bool) (hp : PoolIndexed env pool)
    (hstored : ∀ t, pool.mapTx.lookup (tx.getHash env) = some t → t = tx) :
    Reduced env pool (CTxMemPool.removeDepth env depth pool tx fRecursive) := by
  induction depth generalizing pool tx fRecursive with
  | zero => exact ⟨hp, .refl pool⟩
  | succ depth ih =>
    rw [removeDepth_succ]
    split
    · rename_i hmem
      -- whatever the descent removes, the claims of `tx` stay its own
      have hdescent : Reduced env pool (if fRecursive then (List.range tx.vout.length).foldl
          (CTxMemPool.removeSpender env depth (tx.getHash env)) pool else pool) := by
        split
        · refine List.foldlRecOn (motive := Reduced env pool) _ _ ⟨hp, .refl pool⟩ ?_
          intro q hq i _
          unfold CTxMemPool.removeSpender
          split
          · exact hq
          · split
            · exact hq
            · rename_i spender hspender
              have hown : spender.getHash env = _ := hq.indexed.own_hash hspender
              have hred := ih q spender true hq.indexed (fun t ht => by
                rw [hown] at ht
                exact Option.some.inj (ht.symm.trans hspender))
              exact ⟨hred.indexed, hq.shrinks.trans hred.shrinks⟩
        · exact ⟨hp, .refl pool⟩
      obtain ⟨t, ht⟩ := Option.isSome_iff_exists.mp (AList.lookup_isSome.mpr hmem)
      obtain rfl := hstored t ht
      refine ⟨hdescent.indexed.drop ?_ ?_, hdescent.shrinks.trans (drop_shrinks _ _)⟩
      · intro h s hs o ho hso
        exact hp.spender_unique (hdescent.shrinks h s hs) ht hso ho
      · intro s hs
        exact hstored s (hdescent.shrinks _ s hs)
    · exact ⟨hp, .refl pool⟩

theorem remove_reduced (pool : CTxMemPool) (tx : CTransaction) (fRecursive : Bool)
    (hp : PoolIndexed env pool)
    (hstored : ∀ t, pool.mapTx.lookup (tx.getHash env) = some t → t = tx) :
    Reduced env pool (pool.remove env tx fRecursive) :=
  removeDepth_reduced _ pool tx fRecursive hp hstored

def CTxMemPool.removeConflict (env : Env) (tx : CTransaction) (pool : CTxMemPool) (txin : CTxIn) :
    CTxMemPool :=
  match pool.mapNextTx.lookup txin.prevout with
  | none => pool
  | some inpoint =>
    match pool.lookup inpoint.ptx with
    | none => pool
    | some txConflict => if txConflict ≠ tx then pool.remove env txConflict true else pool

theorem removeConflict_reduced (tx : CTransaction) (pool : CTxMemPool) (txin : CTxIn)
    (hp : PoolIndexed env pool) : Reduced env pool (pool.removeConflict env tx txin) := by
  unfold CTxMemPool.removeConflict
  split
  · exact ⟨hp, .refl pool⟩
  · split
    · exact ⟨hp, .refl pool⟩
    · rename_i txConflict hconflict
      split
      · apply remove_reduced pool txConflict true hp
        intro t ht
        rw [hp.own_hash hconflict] at ht
        exact Option.some.inj (ht.symm.trans hconflict)
      · exact ⟨hp, .refl pool⟩

theorem removeConflicts_reduced (pool : CTxMemPool) (tx : CTransaction) (hp : PoolIndexed env pool) :
    Reduced env pool (pool.removeConflicts env tx) := by
  refine List.foldlRecOn (motive := Reduced env pool) _ _ ⟨hp, .refl pool⟩ ?_
  intro q hq txin _
  have hred := removeConflict_reduced tx q txin hq.indexed
  exact ⟨hred.indexed, hq.shrinks.trans hred.shrinks⟩

end Removal

section Runs

variable {env : Env}

/-- The pool is indexed and holds only these transactions. -/
structure PoolOf (env : Env) (txs : List CTransaction) (pool : CTxMemPool) : Prop where
  indexed : PoolIndexed env pool
  mem : ∀ {h tx}, pool.mapTx.lookup h = some tx → tx ∈ txs

theorem Reduced.poolOf {txs : List CTransaction} {pool pool' : CTxMemPool}
    (h : Reduced env pool pool') (hp : PoolOf env txs pool) : PoolOf env txs pool' :=
  ⟨h.indexed, fun ht => hp.mem (h.shrinks _ _ ht)⟩

theorem PoolOf.add {txs : List CTransaction} {pool : CTxMemPool} {tx : CTransaction}
    (hp : PoolOf env txs pool) (ha : Admissible env pool tx) (htx : tx ∈ txs) :
    PoolOf env txs (pool.addUnchecked (tx.getHash env) tx) := by
  refine ⟨hp.indexed.add ha, ?_⟩
  intro h t ht
  simp only [CTxMemPool.addUnchecked, Assoc.lookup_insert_eq] at ht
  split at ht
  · rw [← Option.some.inj ht]
    exact htx
  · exact hp.mem ht

/-- One call keeps the maps in step. -/
theorem PoolOp.apply_poolOf {txs : List CTransaction} (hno : NoCollision env txs)
    {pool : CTxMemPool} (hp : PoolOf env txs pool) (op : PoolOp) (hop : op.txs ⊆ txs) :
    PoolOf env txs (op.apply env pool) := by
  cases op with
  | accept ctx tx fCheckInputs =>
    unfold PoolOp.apply
    simp only
    split
    · rename_i pool' hok
      obtain ⟨hadm, rfl⟩ := accept_ok hok
      exact hp.add hadm (hop (List.mem_singleton_self tx))
    · exact hp
  | remove tx fRecursive =>
    refine (remove_reduced pool tx fRecursive hp.indexed ?_).poolOf hp
    intro t ht
    exact hno t (hp.mem ht) tx (hop (List.mem_singleton_self tx)) (hp.indexed.own_hash ht)
  | removeConflicts tx => exact (removeConflicts_reduced pool tx hp.indexed).poolOf hp
  | clear => exact ⟨empty_indexed env, by simp [PoolOp.apply, CTxMemPool.clear, CTxMemPool.empty]⟩

theorem runPool_poolOf (ops : List PoolOp) (hno : NoCollision env (ops.flatMap PoolOp.txs)) :
    PoolOf env (ops.flatMap PoolOp.txs) (runPool env ops) := by
  refine List.foldlRecOn (motive := PoolOf env _) _ _
    ⟨empty_indexed env, by simp [CTxMemPool.empty]⟩ ?_
  intro pool hp op hop
  exact PoolOp.apply_poolOf hno hp op fun _ ht => List.mem_flatMap.mpr ⟨op, hop, ht⟩

/-- After any calls, in any order: an outpoint is mapped to input `n` of a transaction exactly
when that transaction is in the pool under its own hash and its input `n` spends the outpoint.
So no two pool transactions spend the same outpoint. -/
theorem pool_maps_in_step (ops : List PoolOp) (hno : NoCollision env (ops.flatMap PoolOp.txs)) :
    (∀ o h n, (runPool env ops).mapNextTx.lookup o = some ⟨h, n⟩ ↔
      ∃ tx, (runPool env ops).mapTx.lookup h = some tx ∧ tx.getHash env = h ∧
        (tx.vin[n]?).map CTxIn.prevout = some o) ∧
    ∀ h h' a b, (runPool env ops).mapTx.lookup h = some a →
      (runPool env ops).mapTx.lookup h' = some b → h ≠ h' →
      ∀ o ∈ a.vin.map CTxIn.prevout, o ∉ b.vin.map CTxIn.prevout := by
  have hp := (runPool_poolOf ops hno).indexed
  constructor
  · intro o h n
    rw [hp.inverse]
    constructor
    · intro hspender
      obtain ⟨tx, htx, hspend⟩ := hspender
      exact ⟨tx, htx, hp.own_hash htx, hspend⟩
    · intro hspender
      obtain ⟨tx, htx, _, hspend⟩ := hspender
      exact ⟨tx, htx, hspend⟩
  · intro h h' a b ha hb hne o hao hbo
    exact hne (hp.spender_unique ha hb hao hbo)

end Runs

namespace Sample

/-! A payment, one that spends its change, and one that spends the same coin as the first. -/

def payment : CTransaction := transfer 21 [⟨10, 0⟩] [3000, 1800]

def change : CTransaction := transfer 22 [⟨21, 0⟩, ⟨21, 1⟩] [4600]

def rival : CTransaction := transfer 23 [⟨10, 0⟩] [4700]

def poolCtx : AcceptCtx where
  nAdjustedTime := 30
  nHeightBest := 0
  nBestHeight := 0
  mempool := .empty
  txdb := fundedNode.txdb
  pindexBest := genesisIndex
  policy := ⟨fun _ _ => true, fun _ => false⟩

def poolCalls : List PoolOp :=
  [.accept poolCtx payment true, .accept poolCtx change true, .removeConflicts rival,
    .accept poolCtx rival true, .remove rival false, .accept poolCtx payment false,
    .accept poolCtx change false]

end Sample

theorem poolCalls_in_step :
    (runPool Sample.spendEnv Sample.poolCalls).mapTx.keys = [22, 21] ∧
      ∀ o h n, (runPool Sample.spendEnv Sample.poolCalls).mapNextTx.lookup o = some ⟨h, n⟩ ↔
        ∃ tx, (runPool Sample.spendEnv Sample.poolCalls).mapTx.lookup h = some tx ∧
          tx.getHash Sample.spendEnv = h ∧ (tx.vin[n]?).map CTxIn.prevout = some o :=
  have hno : NoCollision Sample.spendEnv (Sample.poolCalls.flatMap PoolOp.txs) := by decide
  ⟨by decide, (pool_maps_in_step Sample.poolCalls hno).1⟩

end Triangles
