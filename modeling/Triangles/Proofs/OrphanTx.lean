import Triangles.Model.PoolAccept
import Triangles.Proofs.Pool

/-! The index of the orphan transactions over any run of the calls and messages that
change them. -/

namespace Triangles

open Outcome Buckets

namespace OrphanTxs

variable {env : Env} {o : OrphanTxs}

/-- The index as it is meant: its keys are the hashes that stored transactions spend from,
and under each are the hashes of just those transactions. -/
structure Exact (env : Env) (o : OrphanTxs) : Prop where
  key : ∀ prev, prev ∈ o.mapOrphanTransactionsByPrev ↔
    ∃ h tx, o.mapOrphanTransactions.lookup h = some tx ∧ prev ∈ tx.prevHashes
  bucket : ∀ prev b, o.mapOrphanTransactionsByPrev.lookup prev = some b →
    ∀ x, x ∈ b ↔ ∃ h tx, o.mapOrphanTransactions.lookup h = some tx ∧ prev ∈ tx.prevHashes ∧
      tx.getHash env = x

/-- What every operation keeps: the index is exact but for entries with nothing in them. -/
structure Sound (env : Env) (o : OrphanTxs) : Prop where
  own_hash : ∀ {h tx}, o.mapOrphanTransactions.lookup h = some tx → tx.getHash env = h
  bucket : ∀ prev h, h ∈ Buckets.bucket o.mapOrphanTransactionsByPrev prev ↔
    ∃ tx, o.mapOrphanTransactions.lookup h = some tx ∧ prev ∈ tx.prevHashes

theorem empty_sound (env : Env) : Sound env empty :=
  ⟨by simp [empty], by simp [empty, Buckets.bucket]⟩

theorem empty_not_hollow (prev : uint256) : ¬ Hollow empty.mapOrphanTransactionsByPrev prev := by
  simp [empty, Hollow]

/-- Nobody stored spends from the key of a hollow entry. -/
theorem Sound.hollow_free (hs : Sound env o) {prev h : uint256} {tx : CTransaction}
    (hh : Hollow o.mapOrphanTransactionsByPrev prev)
    (ht : o.mapOrphanTransactions.lookup h = some tx) : prev ∉ tx.prevHashes := by
  intro hp
  have hmem : h ∈ Buckets.bucket o.mapOrphanTransactionsByPrev prev :=
    (hs.bucket prev h).mpr ⟨tx, ht, hp⟩
  rw [Buckets.bucket, hh, Option.getD_some] at hmem
  exact Finset.notMem_empty h hmem

theorem Sound.exact_iff (hs : Sound env o) :
    Exact env o ↔ ∀ prev, ¬ Hollow o.mapOrphanTransactionsByPrev prev := by
  constructor
  · intro he prev hh
    have hmem : prev ∈ o.mapOrphanTransactionsByPrev := (mem_iff _ _).mpr (.inl hh)
    obtain ⟨h, tx, ht, hp⟩ := (he.key prev).mp hmem
    exact hs.hollow_free hh ht hp
  · intro hno
    constructor
    · intro prev
      rw [mem_iff, or_iff_right (hno prev)]
      constructor
      · intro hne
        obtain ⟨h, hh⟩ := hne
        exact ⟨h, (hs.bucket prev h).mp hh⟩
      · intro hw
        obtain ⟨h, hw⟩ := hw
        exact ⟨h, (hs.bucket prev h).mpr hw⟩
    · intro prev b hb x
      have hx := hs.bucket prev x
      rw [Buckets.bucket, hb, Option.getD_some] at hx
      rw [hx]
      constructor
      · intro hw
        obtain ⟨tx, ht, hp⟩ := hw
        exact ⟨x, tx, ht, hp, hs.own_hash ht⟩
      · intro hw
        obtain ⟨h, tx, ht, hp, rfl⟩ := hw
        rw [hs.own_hash ht]
        exact ⟨tx, ht, hp⟩

theorem Sound.add (hs : Sound env o) (tx : CTransaction) : Sound env (o.addOrphanTx env tx).2 := by
  unfold addOrphanTx
  simp only
  split
  · exact hs
  split
  · exact hs
  rename_i hnew _
  have hnone : o.mapOrphanTransactions.lookup (tx.getHash env) = none :=
    AList.lookup_eq_none.mpr hnew
  constructor
  · intro h t ht
    rw [Assoc.lookup_insert_eq] at ht
    split at ht
    · rename_i hh
      rw [← Option.some.inj ht, hh]
    · exact hs.own_hash ht
  · intro prev h
    rw [mem_bucket_putAll, hs.bucket, Assoc.lookup_insert_eq]
    by_cases hh : h = tx.getHash env
    · rw [if_pos hh, hh, hnone]
      simp [CTransaction.prevHashes]
    · rw [if_neg hh]
      simp [hh]

theorem hollow_add (tx : CTransaction) {prev : uint256}
    (h : Hollow (o.addOrphanTx env tx).2.mapOrphanTransactionsByPrev prev) :
    Hollow o.mapOrphanTransactionsByPrev prev := by
  unfold addOrphanTx at h
  simp only at h
  split at h
  · exact h
  split at h
  · exact h
  · exact ((hollow_putAll _ _ _ _ _).mp h).2

theorem Sound.erase (hs : Sound env o) (hash : uint256) : Sound env (o.eraseOrphanTx hash) := by
  unfold eraseOrphanTx
  split
  · exact hs
  rename_i tx htx
  constructor
  · intro h t ht
    rw [Assoc.lookup_erase_eq] at ht
    split at ht
    · cases ht
    · exact hs.own_hash ht
  · intro prev h
    rw [mem_bucket_takeAll, hs.bucket, Assoc.lookup_erase_eq]
    by_cases hh : h = hash
    · rw [if_pos hh, hh, htx]
      simp [CTransaction.prevHashes]
    · rw [if_neg hh]
      simp [hh]

/-- Erasing neither makes a hollow entry nor cleans one up. -/
theorem Sound.hollow_erase (hs : Sound env o) (hash prev : uint256) :
    Hollow (o.eraseOrphanTx hash).mapOrphanTransactionsByPrev prev ↔
      Hollow o.mapOrphanTransactionsByPrev prev := by
  unfold eraseOrphanTx
  split
  · rfl
  rename_i tx htx
  rw [hollow_takeAll]
  constructor
  · exact And.right
  · intro hh
    exact ⟨hs.hollow_free hh htx, hh⟩

theorem Sound.eraseAll (hs : Sound env o) (l : List uint256) :
    Sound env (l.foldl eraseOrphanTx o) ∧
      ∀ prev, Hollow (l.foldl eraseOrphanTx o).mapOrphanTransactionsByPrev prev ↔
        Hollow o.mapOrphanTransactionsByPrev prev := by
  induction l generalizing o with
  | nil => exact ⟨hs, fun _ => Iff.rfl⟩
  | cons hash l ih =>
    obtain ⟨hsound, hhollow⟩ := ih (hs.erase hash)
    exact ⟨hsound, fun prev => (hhollow prev).trans (hs.hollow_erase hash prev)⟩

/-! `LimitOrphanTxSize`. -/

theorem chooseEvicted_mem {randomhash hash : uint256}
    (h : o.chooseEvicted randomhash = some hash) : hash ∈ o.mapOrphanTransactions.keys := by
  unfold chooseEvicted at h
  simp only [Option.or_eq_some_iff] at h
  rcases h with hlow | ⟨_, hfirst⟩
  · exact (List.mem_filter.mp (List.min?_mem hlow)).1
  · exact List.min?_mem hfirst

theorem chooseEvicted_some (randomhash : uint256) (h : 0 < o.size) :
    ∃ hash, o.chooseEvicted randomhash = some hash := by
  have hne : o.mapOrphanTransactions.keys.min? ≠ none := by
    rw [Ne, List.min?_eq_none_iff]
    exact List.ne_nil_of_length_pos h
  obtain ⟨hash, hmin⟩ := Option.ne_none_iff_exists'.mp hne
  unfold chooseEvicted
  simp only [hmin]
  cases (o.mapOrphanTransactions.keys.filter (randomhash ≤ ·)).min? with
  | none => exact ⟨hash, rfl⟩
  | some low => exact ⟨low, rfl⟩

theorem size_erase {hash : uint256} (h : hash ∈ o.mapOrphanTransactions.keys) :
    (o.eraseOrphanTx hash).size + 1 = o.size := by
  obtain ⟨tx, htx⟩ := Option.isSome_iff_exists.mp (AList.lookup_isSome.mpr (AList.mem_keys.mp h))
  unfold eraseOrphanTx size
  rw [htx]
  simp only [AList.keys_erase]
  rw [List.length_erase_of_mem h]
  have := List.length_pos_of_mem h
  omega

/-- The loop stops at the limit when it has a round for every entry. -/
theorem limitLoop_size {nMaxOrphans : Nat} {randomhash : Nat → uint256} (rounds nEvicted : Nat)
    (h : o.size ≤ rounds) :
    (limitLoop nMaxOrphans randomhash rounds nEvicted o).2.size ≤ nMaxOrphans := by
  induction rounds generalizing o nEvicted with
  | zero => exact h.trans (Nat.zero_le _)
  | succ rounds ih =>
    unfold limitLoop
    split
    · rename_i hlarge
      obtain ⟨hash, hchoice⟩ := chooseEvicted_some (o := o) (randomhash nEvicted) (by omega)
      rw [hchoice]
      have hless := size_erase (chooseEvicted_mem hchoice)
      exact ih _ (by omega)
    · rename_i hsmall
      exact Nat.not_lt.mp hsmall

theorem limitOrphanTxSize_size (o : OrphanTxs) (nMaxOrphans : Nat) (randomhash : Nat → uint256) :
    (o.limitOrphanTxSize nMaxOrphans randomhash).2.size ≤ nMaxOrphans :=
  limitLoop_size _ _ le_rfl

theorem Sound.limitLoop (nMaxOrphans : Nat) (randomhash : Nat → uint256) (hs : Sound env o)
    (rounds nEvicted : Nat) :
    Sound env (limitLoop nMaxOrphans randomhash rounds nEvicted o).2 ∧
      ∀ prev, Hollow (OrphanTxs.limitLoop nMaxOrphans randomhash rounds nEvicted
          o).2.mapOrphanTransactionsByPrev prev ↔ Hollow o.mapOrphanTransactionsByPrev prev := by
  induction rounds generalizing o nEvicted with
  | zero => exact ⟨hs, fun _ => Iff.rfl⟩
  | succ rounds ih =>
    unfold OrphanTxs.limitLoop
    split
    · cases o.chooseEvicted (randomhash nEvicted) with
      | none => exact ⟨hs, fun _ => Iff.rfl⟩
      | some hash =>
        obtain ⟨hsound, hhollow⟩ := ih (hs.erase hash) (nEvicted + 1)
        exact ⟨hsound, fun prev => (hhollow prev).trans (hs.hollow_erase hash prev)⟩
    · exact ⟨hs, fun _ => Iff.rfl⟩

end OrphanTxs

/-! The `tx` message, seen from the stored transactions alone: the same loop without the
index. -/

section Walk

variable (env : Env) (ctx : TxCtx) (stored : AList (fun _ : uint256 => CTransaction))

def awaiting (prev : uint256) : Finset uint256 :=
  (stored.keys.filter fun h =>
    (stored.lookup h).any fun tx => decide (prev ∈ tx.prevHashes)).toFinset

def offerStored (q : TxQueues) (h : uint256) : TxQueues :=
  match stored.lookup h with
  | none => q
  | some tx => q.offer env ctx h tx

def walk : Nat → Nat → TxQueues → TxQueues
  | 0, _, q => q
  | rounds + 1, i, q =>
    match q.vWorkQueue[i]? with
    | none => q
    | some hashPrev =>
      walk rounds (i + 1) (((awaiting stored hashPrev).sort).foldl (offerStored env ctx stored) q)

/-- The transactions the pool takes when it is offered `tx` and then, in turn, the stored
transactions that spend from one it has taken. -/
def acceptedInTurn (tx : CTransaction) : List uint256 :=
  match CTxMemPool.accept env (ctx.acceptCtx ctx.mempool 0) tx true with
  | .error _ => []
  | .ok pool =>
    let hash := tx.getHash env
    (walk env ctx stored (stored.keys.length + 1) 0 ⟨pool, [hash], [hash], 1⟩).vWorkQueue

end Walk

section Handler

variable {env : Env} {ctx : TxCtx} {stored : AList (fun _ : uint256 => CTransaction)}
  {q : TxQueues}

theorem mem_awaiting {prev h : uint256} :
    h ∈ awaiting stored prev ↔ ∃ tx, stored.lookup h = some tx ∧ prev ∈ tx.prevHashes := by
  unfold awaiting
  rw [List.mem_toFinset, List.mem_filter, Option.any_eq_true]
  constructor
  · rintro ⟨_, tx, ht, hp⟩
    exact ⟨tx, ht, of_decide_eq_true hp⟩
  · rintro ⟨tx, ht, hp⟩
    exact ⟨AList.mem_keys.mp (AList.lookup_isSome.mp (by rw [ht]; rfl)), tx, ht,
      decide_eq_true hp⟩

/-- A queue grows at its end only. -/
theorem offer_extends (q : TxQueues) (h : uint256) (tx : CTransaction) :
    q.vWorkQueue <+: (q.offer env ctx h tx).vWorkQueue := by
  unfold TxQueues.offer
  split
  · exact List.prefix_append _ _
  split
  · exact List.prefix_refl _
  · exact List.prefix_refl _

theorem offerStored_extends (q : TxQueues) (h : uint256) :
    q.vWorkQueue <+: (offerStored env ctx stored q h).vWorkQueue := by
  unfold offerStored
  split
  · exact List.prefix_refl _
  · exact offer_extends q _ _

theorem offerAll_extends (l : List uint256) (q : TxQueues) :
    q.vWorkQueue <+: (l.foldl (offerStored env ctx stored) q).vWorkQueue := by
  induction l generalizing q with
  | nil => exact List.prefix_refl _
  | cons h l ih => exact (offerStored_extends q h).trans (ih _)

theorem walk_extends (rounds i : Nat) (q : TxQueues) :
    q.vWorkQueue <+: (walk env ctx stored rounds i q).vWorkQueue := by
  induction rounds generalizing i q with
  | zero => exact List.prefix_refl _
  | succ rounds ih =>
    unfold walk
    split
    · exact List.prefix_refl _
    · exact (offerAll_extends _ q).trans (ih _ _)

/-- What is in the work queue: transactions of the pool, each once, all but the first of
them stored. -/
structure Queued (stored : AList (fun _ : uint256 => CTransaction)) (q : TxQueues) : Prop where
  nodup : q.vWorkQueue.Nodup
  pooled : ∀ h ∈ q.vWorkQueue, h ∈ q.mempool.mapTx
  started : q.vWorkQueue ≠ []
  stored : ∀ h ∈ q.vWorkQueue.tail, h ∈ stored.keys

theorem Queued.offer (hq : Queued stored q) {h : uint256} {tx : CTransaction}
    (ht : stored.lookup h = some tx) (hh : tx.getHash env = h) :
    Queued stored (q.offer env ctx h tx) := by
  unfold TxQueues.offer
  split
  · rename_i pool hok
    obtain ⟨hadm, rfl⟩ := accept_ok hok
    have hnew : h ∉ q.mempool.mapTx := hh ▸ hadm.new
    constructor
    · rw [List.nodup_append]
      refine ⟨hq.nodup, List.nodup_singleton h, ?_⟩
      intro a ha b hb hab
      rw [List.mem_singleton] at hb
      exact hnew (hb ▸ hab ▸ hq.pooled a ha)
    · intro a ha
      rw [TxCtx.acceptCtx, CTxMemPool.addUnchecked, hh, AList.mem_insert]
      rcases List.mem_append.mp ha with ha | ha
      · exact .inr (hq.pooled a ha)
      · exact .inl (List.mem_singleton.mp ha)
    · exact List.append_ne_nil_of_left_ne_nil hq.started _
    · intro a ha
      rw [List.tail_append_of_ne_nil hq.started, List.mem_append, List.mem_singleton] at ha
      rcases ha with ha | rfl
      · exact hq.stored a ha
      · exact AList.mem_keys.mp (AList.lookup_isSome.mp (by rw [ht]; rfl))
  split
  · exact ⟨hq.nodup, hq.pooled, hq.started, hq.stored⟩
  · exact ⟨hq.nodup, hq.pooled, hq.started, hq.stored⟩

section OwnHash

variable (hown : ∀ {h tx}, stored.lookup h = some tx → tx.getHash env = h)
include hown

theorem Queued.offerAll (l : List uint256) (hq : Queued stored q) :
    Queued stored (l.foldl (offerStored env ctx stored) q) := by
  induction l generalizing q with
  | nil => exact hq
  | cons h l ih =>
    apply ih
    unfold offerStored
    split
    · exact hq
    · rename_i tx ht
      exact hq.offer ht (hown ht)

theorem Queued.walk (ctx : TxCtx) (rounds i : Nat) (hq : Queued stored q) :
    Queued stored (walk env ctx stored rounds i q) := by
  induction rounds generalizing i q with
  | zero => exact hq
  | succ rounds ih =>
    unfold Triangles.walk
    split
    · exact hq
    · exact ih _ (hq.offerAll hown _)

end OwnHash

theorem Queued.length_le (hq : Queued stored q) :
    q.vWorkQueue.length ≤ stored.keys.length + 1 := by
  have hle : q.vWorkQueue.tail.length ≤ stored.keys.length :=
    (hq.nodup.tail.subperm hq.stored).length_le
  rw [List.length_tail] at hle
  omega

/-! The handler does what the walk says, and leaves a hollow entry behind for each hash it
looks up in vain. -/

theorem tryAll_stored {o : OrphanTxs} (l : List uint256)
    (hl : ∀ h ∈ l, ∃ tx, o.mapOrphanTransactions.lookup h = some tx) (q : TxQueues) :
    l.foldl (tryOrphan env ctx) (o, q) =
      (o, l.foldl (offerStored env ctx o.mapOrphanTransactions) q) := by
  induction l generalizing q with
  | nil => rfl
  | cons h l ih =>
    obtain ⟨tx, ht⟩ := hl h List.mem_cons_self
    rw [List.foldl_cons, List.foldl_cons]
    have hstep : tryOrphan env ctx (o, q) h =
        (o, offerStored env ctx o.mapOrphanTransactions q h) := by
      simp only [tryOrphan, OrphanTxs.orphanAt, offerStored, ht]
    rw [hstep]
    exact ih (fun a ha => hl a (List.mem_cons_of_mem _ ha)) _

theorem OrphanTxs.Sound.touch {o : OrphanTxs} (hs : o.Sound env) (prev : uint256) :
    OrphanTxs.Sound env { o with
      mapOrphanTransactionsByPrev := Buckets.touch o.mapOrphanTransactionsByPrev prev } :=
  ⟨hs.own_hash, fun p h => by rw [bucket_touch]; exact hs.bucket p h⟩

theorem OrphanTxs.Sound.bucket_eq {o : OrphanTxs} (hs : o.Sound env) (prev : uint256) :
    Buckets.bucket o.mapOrphanTransactionsByPrev prev =
      awaiting o.mapOrphanTransactions prev := by
  ext h
  rw [hs.bucket, mem_awaiting]

theorem processQueue_spec (ctx : TxCtx) {o : OrphanTxs} (hs : o.Sound env) (rounds i : Nat)
    (q : TxQueues) :
    (processQueue env ctx rounds i (o, q)).2 = walk env ctx o.mapOrphanTransactions rounds i q ∧
    (processQueue env ctx rounds i (o, q)).1.Sound env ∧
    ∀ prev,
      Hollow (processQueue env ctx rounds i (o, q)).1.mapOrphanTransactionsByPrev prev ↔
        Hollow o.mapOrphanTransactionsByPrev prev ∨
        prev ∈ ((walk env ctx o.mapOrphanTransactions rounds i q).vWorkQueue.drop i).take rounds ∧
          awaiting o.mapOrphanTransactions prev = ∅ := by
  induction rounds generalizing i o q with
  | zero => exact ⟨rfl, hs, by simp [processQueue]⟩
  | succ rounds ih =>
    unfold processQueue walk
    simp only
    cases hprev : q.vWorkQueue[i]? with
    | none =>
      have hdrop : q.vWorkQueue.drop i = [] :=
        List.drop_eq_nil_iff.mpr (List.getElem?_eq_none_iff.mp hprev)
      exact ⟨rfl, hs, by simp [hdrop]⟩
    | some hashPrev =>
      simp only [bucket_touch, hs.bucket_eq hashPrev]
      rw [tryAll_stored]
      · obtain ⟨hq, hsound, hhollow⟩ := ih (hs.touch hashPrev) (i + 1)
          (((awaiting o.mapOrphanTransactions hashPrev).sort).foldl
            (offerStored env ctx o.mapOrphanTransactions) q)
        refine ⟨hq, hsound, fun prev => ?_⟩
        rw [hhollow, hollow_touch, hs.bucket_eq]
        -- the entry at `i` is still there at the end, and is the first one looked up
        generalize hfinal : walk env ctx o.mapOrphanTransactions rounds (i + 1) _ = final
        have hi : final.vWorkQueue[i]? = some hashPrev := by
          obtain ⟨hlt, rfl⟩ := List.getElem?_eq_some_iff.mp hprev
          rw [← hfinal]
          exact List.prefix_iff_getElem?.mp ((offerAll_extends _ q).trans (walk_extends _ _ _)) i hlt
        obtain ⟨hlt, hget⟩ := List.getElem?_eq_some_iff.mp hi
        rw [List.drop_eq_getElem_cons hlt, hget, List.take_succ_cons, List.mem_cons]
        constructor
        · rintro ((hh | ⟨rfl, he⟩) | ⟨hm, he⟩)
          · exact .inl hh
          · exact .inr ⟨.inl rfl, he⟩
          · exact .inr ⟨.inr hm, he⟩
        · rintro (hh | ⟨rfl | hm, he⟩)
          · exact .inl (.inl hh)
          · exact .inl (.inr ⟨rfl, he⟩)
          · exact .inr ⟨hm, he⟩
      · intro h hh
        rw [Finset.mem_sort, mem_awaiting] at hh
        obtain ⟨tx, ht, _⟩ := hh
        exact ⟨tx, ht⟩

theorem walk_rounds (extra rounds i : Nat) (q : TxQueues)
    (h : (walk env ctx stored rounds i q).vWorkQueue.length ≤ i + rounds) :
    walk env ctx stored (rounds + extra) i q = walk env ctx stored rounds i q := by
  induction rounds generalizing i q with
  | zero =>
    have hnone : q.vWorkQueue[i]? = none := List.getElem?_eq_none_iff.mpr h
    cases extra with
    | zero => rfl
    | succ extra => simp only [walk, hnone]
  | succ rounds ih =>
    rw [Nat.add_right_comm]
    unfold walk at h ⊢
    cases hprev : q.vWorkQueue[i]? with
    | none => rfl
    | some hashPrev =>
      rw [hprev] at h
      exact ih _ _ (by simpa [Nat.add_right_comm, Nat.add_assoc] using h)

theorem queued_start {pool : CTxMemPool} {actx : AcceptCtx} {tx : CTransaction}
    (h : CTxMemPool.accept env actx tx true = .ok pool) :
    Queued stored ⟨pool, [tx.getHash env], [tx.getHash env], 1⟩ := by
  obtain ⟨_, rfl⟩ := accept_ok h
  refine ⟨List.nodup_singleton _, ?_, List.cons_ne_nil _ _, fun h hh => absurd hh (by simp)⟩
  intro h hh
  rw [List.mem_singleton] at hh
  simp [hh, CTxMemPool.addUnchecked]

/-- The rounds the handler gives its work loop are enough: more change nothing. -/
theorem work_loop_ends {o : OrphanTxs} (hs : o.Sound env) {pool : CTxMemPool} {actx : AcceptCtx}
    {tx : CTransaction} (h : CTxMemPool.accept env actx tx true = .ok pool) (extra : Nat) :
    (processQueue env ctx (o.size + 1 + extra) 0
        (o, ⟨pool, [tx.getHash env], [tx.getHash env], 1⟩)).2 =
      (processQueue env ctx (o.size + 1) 0
        (o, ⟨pool, [tx.getHash env], [tx.getHash env], 1⟩)).2 := by
  rw [(processQueue_spec ctx hs _ _ _).1, (processQueue_spec ctx hs _ _ _).1]
  apply walk_rounds
  rw [Nat.zero_add]
  exact ((queued_start h).walk hs.own_hash ctx _ _).length_le

theorem processTx_spec (ctx : TxCtx) {o : OrphanTxs} (hs : o.Sound env) (randomhash : Nat → uint256)
    (tx : CTransaction) :
    (processTx env ctx randomhash o tx).1.Sound env ∧
    (∀ prev, Hollow (processTx env ctx randomhash o tx).1.mapOrphanTransactionsByPrev prev →
      Hollow o.mapOrphanTransactionsByPrev prev ∨
      prev ∈ acceptedInTurn env ctx o.mapOrphanTransactions tx ∧
        awaiting o.mapOrphanTransactions prev = ∅) ∧
    ∀ prev ∈ acceptedInTurn env ctx o.mapOrphanTransactions tx,
      awaiting o.mapOrphanTransactions prev = ∅ →
      Hollow (processTx env ctx randomhash o tx).1.mapOrphanTransactionsByPrev prev := by
  unfold processTx acceptedInTurn
  cases hok : CTxMemPool.accept env (ctx.acceptCtx ctx.mempool 0) tx true with
  | ok pool =>
    simp only
    obtain ⟨hq, hsound, hhollow⟩ := processQueue_spec ctx hs (o.size + 1) 0
      ⟨pool, [tx.getHash env], [tx.getHash env], 1⟩
    obtain ⟨hsound', hhollow'⟩ := hsound.eraseAll (processQueue env ctx (o.size + 1) 0
      (o, ⟨pool, [tx.getHash env], [tx.getHash env], 1⟩)).2.vEraseQueue
    have hlen := ((queued_start hok).walk hs.own_hash ctx (o.size + 1) 0).length_le
    change _ ≤ o.size + 1 at hlen
    rw [List.drop_zero, List.take_of_length_le hlen] at hhollow
    refine ⟨hsound', fun prev hh => (hhollow prev).mp ((hhollow' prev).mp hh), ?_⟩
    intro prev hm he
    exact (hhollow' prev).mpr ((hhollow prev).mpr (.inr ⟨hm, he⟩))
  | error e =>
    simp only
    split
    · obtain ⟨hsound, hhollow⟩ := (hs.add tx).limitLoop MAX_ORPHAN_TRANSACTIONS randomhash
        (o.addOrphanTx env tx).2.size 0
      refine ⟨hsound, fun prev hh => .inl (OrphanTxs.hollow_add tx ((hhollow prev).mp hh)), ?_⟩
      intro prev hm
      cases hm
    · refine ⟨hs, fun prev hh => .inl hh, ?_⟩
      intro prev hm
      cases hm

end Handler

section Runs

variable {env : Env}

/-- Whenever the message makes the pool take a transaction, a stored one waits for it. -/
def OrphanOp.Awaited (env : Env) (o : OrphanTxs) : OrphanOp → Prop
  | .txMessage ctx _ tx => ∀ prev ∈ acceptedInTurn env ctx o.mapOrphanTransactions tx,
      ∃ h t, o.mapOrphanTransactions.lookup h = some t ∧ prev ∈ t.prevHashes
  | _ => True

/-- Each step of a run, in the state it is taken in. -/
def AllAwaited (env : Env) : OrphanTxs → List OrphanOp → Prop
  | _, [] => True
  | o, op :: ops => op.Awaited env o ∧ AllAwaited env (op.apply env o) ops

theorem awaiting_ne_empty {stored : AList (fun _ : uint256 => CTransaction)} {prev : uint256} :
    awaiting stored prev ≠ ∅ ↔ ∃ h tx, stored.lookup h = some tx ∧ prev ∈ tx.prevHashes := by
  rw [← Finset.nonempty_iff_ne_empty]
  exact exists_congr fun h => mem_awaiting

theorem OrphanOp.apply_sound {o : OrphanTxs} (hs : o.Sound env) (op : OrphanOp) :
    (op.apply env o).Sound env := by
  cases op with
  | addOrphanTx tx => exact hs.add tx
  | eraseOrphanTx hash => exact hs.erase hash
  | limitOrphanTxSize nMaxOrphans randomhash => exact (hs.limitLoop nMaxOrphans randomhash _ _).1
  | txMessage ctx randomhash tx => exact (processTx_spec ctx hs randomhash tx).1

/-- One step from an exact index leaves it exact just when every transaction taken is
awaited. -/
theorem OrphanOp.apply_exact {o : OrphanTxs} (hs : o.Sound env) (he : o.Exact env)
    (op : OrphanOp) : (op.apply env o).Exact env ↔ op.Awaited env o := by
  rw [(op.apply_sound hs).exact_iff]
  have hno := hs.exact_iff.mp he
  cases op with
  | addOrphanTx tx => exact iff_of_true (fun prev hh => hno prev (OrphanTxs.hollow_add tx hh)) trivial
  | eraseOrphanTx hash =>
    exact iff_of_true (fun prev hh => hno prev ((hs.hollow_erase hash prev).mp hh)) trivial
  | limitOrphanTxSize nMaxOrphans randomhash =>
    exact iff_of_true (fun prev hh => hno prev (((hs.limitLoop nMaxOrphans randomhash _ _).2 prev).mp hh)) trivial
  | txMessage ctx randomhash tx =>
    obtain ⟨_, hleft, hright⟩ := processTx_spec ctx hs randomhash tx
    constructor
    · intro h prev hm
      rw [← awaiting_ne_empty]
      intro hempty
      exact h prev (hright prev hm hempty)
    · intro h prev hh
      rcases hleft prev hh with hold | ⟨hm, hempty⟩
      · exact hno prev hold
      · exact awaiting_ne_empty.mpr (h prev hm) hempty

theorem runs_exact_iff {o : OrphanTxs} (hs : o.Sound env) (he : o.Exact env)
    (ops : List OrphanOp) :
    (∀ t ∈ ops.scanl (OrphanOp.apply env) o, t.Exact env) ↔ AllAwaited env o ops := by
  induction ops generalizing o with
  | nil => simpa [AllAwaited] using he
  | cons op ops ih =>
    rw [List.scanl_cons, List.forall_mem_cons, AllAwaited, and_iff_right he]
    constructor
    · intro h
      have hnext : (op.apply env o).Exact env := h _ (List.mem_of_getElem? List.getElem?_scanl_zero)
      exact ⟨(op.apply_exact hs he).mp hnext, (ih (op.apply_sound hs) hnext).mp h⟩
    · rintro ⟨hop, hops⟩
      have hnext := (op.apply_exact hs he).mpr hop
      exact (ih (op.apply_sound hs) hnext).mpr hops

theorem empty_exact (env : Env) : OrphanTxs.empty.Exact env :=
  (OrphanTxs.empty_sound env).exact_iff.mpr OrphanTxs.empty_not_hollow

/-- The index is exact in every state of a run just when, at each `tx` message, every
transaction the pool takes has a stored one waiting for it. The limit on the number of
orphans is kept in any case. -/
theorem orphan_index_exact_iff (env : Env) (ops : List OrphanOp) :
    ((∀ o ∈ ops.scanl (OrphanOp.apply env) .empty, o.Exact env) ↔ AllAwaited env .empty ops) ∧
    ∀ o ∈ ops.scanl (OrphanOp.apply env) .empty, ∀ nMaxOrphans randomhash,
      (o.limitOrphanTxSize nMaxOrphans randomhash).2.size ≤ nMaxOrphans :=
  ⟨runs_exact_iff (OrphanTxs.empty_sound env) (empty_exact env) ops,
    fun o _ nMaxOrphans randomhash => o.limitOrphanTxSize_size nMaxOrphans randomhash⟩

end Runs

namespace Sample

def txCtx : TxCtx where
  toCtx := poolCtx.toCtx
  txdb := fundedNode.txdb
  pindexBest := genesisIndex
  policy _ := poolCtx.policy

end Sample

/-- A payment that arrives when nothing is stored leaves an entry for its hash, which no
transaction waits for. -/
theorem lone_payment_leaves_entry :
    ¬ ∀ o ∈ [OrphanOp.txMessage Sample.txCtx (fun _ => 0) Sample.payment].scanl
        (OrphanOp.apply Sample.spendEnv) .empty, o.Exact Sample.spendEnv := by
  intro h
  have hlast := (h (OrphanOp.apply Sample.spendEnv .empty
    (.txMessage Sample.txCtx (fun _ => 0) Sample.payment)) (by simp)).key 21
  have hkey : 21 ∈ (OrphanOp.apply Sample.spendEnv .empty
      (.txMessage Sample.txCtx (fun _ => 0) Sample.payment)).mapOrphanTransactionsByPrev := by
    decide +kernel
  have hnone : (OrphanOp.apply Sample.spendEnv .empty
      (.txMessage Sample.txCtx (fun _ => 0) Sample.payment)).mapOrphanTransactions.keys = [] := by
    decide +kernel
  obtain ⟨x, tx, htx, _⟩ := hlast.mp hkey
  have hx := AList.mem_keys.mp (AList.lookup_isSome.mp (Option.isSome_of_eq_some htx))
  rw [hnone] at hx
  cases hx

end Triangles
