import Triangles.Proofs.Coherence
import Triangles.Proofs.Worth

/-! The transactions of the best chain spend each output once, and only outputs of earlier
transactions. The index is a function of the chain, so whatever order blocks were connected and
disconnected in does not matter. -/

namespace Triangles

open Outcome Batch Trace Ledger CBlockIndex

/-- A block tree whose blocks went through `AcceptBlock`: they are on disk, their coinbases
carry their heights, and no two different transactions share an id. Heights are `int`. -/
structure ChainTree (env : Env) extends BlockTree env where
  height_lt : ∀ {a}, mem a → a.nHeight < 2 ^ 31
  stored : ∀ {a}, mem a → env.readBlock a.fields.nFile a.fields.nBlockPos = some (block a)
  coinbase_height : ∀ {f p}, mem (.child f p) →
    (block (.child f p)).coinbaseHasHeight (p.nHeight + 1) = true
  txid_inj : ∀ {a b}, mem a → mem b → ∀ tx ∈ (block a).vtx, ∀ tx' ∈ (block b).vtx,
    tx.getHash env = tx'.getHash env → tx = tx'
  genesis_txs : ∀ {f}, mem (.genesis f) → ∀ tx ∈ (block (.genesis f)).vtx, tx.isCoinBase = true

def chainTxs {env : Env} (T : ChainTree env) : CBlockIndex → List CTransaction
  | .genesis f => (T.block (.genesis f)).vtx
  | .child f p => chainTxs T p ++ (T.block (.child f p)).vtx

/-- No outpoint is spent twice, and every input refers to an output of an earlier transaction. -/
structure SoundChain (env : Env) (txs : List CTransaction) : Prop where
  once : (txs.flatMap spends).Nodup
  earlier : ∀ pre tx post, txs = pre ++ tx :: post → ∀ o ∈ spends tx,
    ∃ prev ∈ pre, prev.getHash env = o.hash ∧ o.n.toNat < prev.vout.length

namespace Ledger

/-- Property of every split of a list, when one more item is appended. -/
theorem split_snoc {α : Type} {P : List α → α → Prop} {l : List α} {x : α}
    (hl : ∀ pre a post, l = pre ++ a :: post → P pre a) (hx : P l x) :
    ∀ pre a post, l ++ [x] = pre ++ a :: post → P pre a := by
  intro pre a post h
  rcases List.eq_nil_or_concat post with rfl | ⟨post', y, rfl⟩
  · obtain ⟨rfl, hxa⟩ := List.append_inj' h rfl
    cases hxa
    exact hx
  · rw [List.concat_eq_append, ← List.cons_append, ← List.append_assoc] at h
    exact hl pre a post' (List.append_inj' h rfl).1

/-- The index is that of a list of transactions: their ids are distinct and are the indexed
ones, and what is unspent are outputs of theirs that none of them spends. -/
structure Records (env : Env) (V : TxIndexMap) (txs : List CTransaction) : Prop where
  ids : (txs.map (CTransaction.getHash env)).Nodup
  absent : ∀ h, h ∉ txs.map (CTransaction.getHash env) → V h = none
  unspent : ∀ o, IsUnspent V o → o ∉ txs.flatMap spends ∧
    ∃ tx ∈ txs, tx.getHash env = o.hash ∧ o.n.toNat < tx.vout.length
  sound : SoundChain env txs

section Records

variable {env : Env} {V : TxIndexMap} {txs : List CTransaction}

theorem records_nil : Records env (fun _ => none) [] where
  ids := List.nodup_nil
  absent _ _ := rfl
  unspent o h := by
    obtain ⟨idx, hi, _⟩ := h
    cases hi
  sound := ⟨List.nodup_nil, fun pre tx post h => by simp at h⟩

/-- What is unspent belongs to a recorded transaction. -/
theorem Records.hash_mem (hr : Records env V txs) {o : COutPoint} (hu : IsUnspent V o) :
    o.hash ∈ txs.map (CTransaction.getHash env) := by
  obtain ⟨_, tx, hm, hh, _⟩ := hr.unspent o hu
  exact hh ▸ List.mem_map_of_mem hm

/-- Everything spent belongs to a recorded transaction. -/
theorem Records.spent_mem (hr : Records env V txs) {o : COutPoint}
    (ho : o ∈ txs.flatMap spends) : o.hash ∈ txs.map (CTransaction.getHash env) := by
  obtain ⟨tx, hm, hspends⟩ := List.mem_flatMap.mp ho
  obtain ⟨pre, post, rfl⟩ := List.append_of_mem hm
  obtain ⟨prev, hprev, hh, _⟩ := hr.sound.earlier pre tx post rfl o hspends
  exact hh ▸ List.mem_map_of_mem (List.mem_append_left _ hprev)

/-- Posting a transaction with a new id records it. -/
theorem Records.post (hr : Records env V txs) {pos : CDiskTxPos} {tx : CTransaction}
    (hp : pos.isNull = false) (hlen : tx.vout.length < 2 ^ 32)
    (hnew : tx.getHash env ∉ txs.map (CTransaction.getHash env)) (hd : (spends tx).Nodup)
    (hu : ∀ o ∈ spends tx, IsUnspent V o) :
    Records env (applyTx env pos V tx) (txs ++ [tx]) := by
  have hempty : NoUnspent V (tx.getHash env) := by
    rintro o ho ⟨idx, hi, _⟩
    rw [ho, hr.absent _ hnew] at hi
    cases hi
  have hfresh : ∀ o ∈ spends tx, o ∉ txs.flatMap spends := fun o ho => (hr.unspent o (hu o ho)).1
  refine ⟨?_, ?_, ?_, ?_, ?_⟩
  · rw [List.map_append, List.nodup_append]
    refine ⟨hr.ids, by simp, ?_⟩
    intro a ha b hb
    simp only [List.map_cons, List.map_nil, List.mem_singleton] at hb
    subst hb
    exact fun he => hnew (he ▸ ha)
  · intro h hh
    simp only [List.map_append, List.map_cons, List.map_nil, List.mem_append, List.mem_singleton,
      not_or] at hh
    unfold applyTx
    rw [Function.update_of_ne hh.2, markAll_none (hr.absent h hh.1)]
  · intro o ho
    simp only [List.flatMap_append, List.flatMap_singleton, List.mem_append, List.mem_singleton]
    rcases (unspent_applyTx hp hlen hempty o).mp ho with ⟨hold, hns⟩ | hc
    · obtain ⟨hn, prev, hm, hh⟩ := hr.unspent o hold
      exact ⟨by simp [hn, hns], prev, .inl hm, hh⟩
    · obtain ⟨hh, hn⟩ := (mem_created hlen).mp hc
      refine ⟨?_, tx, .inr rfl, hh.symm, hn⟩
      rintro (hs | hs)
      · exact hnew (hh ▸ hr.spent_mem hs)
      · exact hnew (hh ▸ hr.hash_mem (hu o hs))
  · rw [List.flatMap_append, List.flatMap_singleton, List.nodup_append]
    exact ⟨hr.sound.once, hd, fun a ha b hb he => hfresh b hb (he ▸ ha)⟩
  · apply split_snoc hr.sound.earlier
    intro o ho
    obtain ⟨_, prev, hm, hh⟩ := hr.unspent o (hu o ho)
    exact ⟨prev, hm, hh⟩

/-- An ordinary transaction cannot be recorded a second time: the outputs it spends are
spent already. -/
theorem Records.new_id (hr : Records env V txs) {tx : CTransaction} (hne : spends tx ≠ [])
    (hinj : ∀ tx' ∈ txs, tx'.getHash env = tx.getHash env → tx' = tx)
    (hu : ∀ o ∈ spends tx, IsUnspent V o) :
    tx.getHash env ∉ txs.map (CTransaction.getHash env) := by
  intro hm
  obtain ⟨tx', hm', hh⟩ := List.mem_map.mp hm
  obtain rfl := hinj tx' hm' hh
  obtain ⟨o, ho⟩ := List.exists_mem_of_ne_nil _ hne
  exact (hr.unspent o (hu o ho)).1 (List.mem_flatMap.mpr ⟨tx', hm', ho⟩)

/-- Posting ordinary transactions one after the other. -/
theorem Records.post_all (pindex : CBlockIndex) (pool : CTxMemPool) (seen : CTransaction → Prop)
    (hinj : ∀ tx tx', seen tx → seen tx' → tx.getHash env = tx'.getHash env → tx = tx')
    (vtx txs : List CTransaction) (b : Book) (hr : Records env b.index txs)
    (htxs : ∀ tx ∈ txs, seen tx) (hvtx : ∀ tx ∈ vtx, seen tx)
    (hcheck : ∀ tx ∈ vtx, tx.isCoinBase = false ∧ tx.checkTransaction = .ok ())
    (hadm : ∀ x ∈ trace (Book.post env pindex) b vtx, Admits env pool x.1.index x.2) :
    Records env (vtx.foldl (Book.post env pindex) b).index (txs ++ vtx) := by
  induction vtx generalizing txs b with
  | nil => simpa using hr
  | cons tx vtx ih =>
    have ha := hadm (b, tx) (by simp)
    obtain ⟨hcb, hvalid⟩ := hcheck tx (by simp)
    have hne : spends tx ≠ [] := by
      simp only [CTransaction.checkTransaction, check_bind] at hvalid
      rw [spends_of_not_coinBase hcb]
      intro he
      simp [List.map_eq_nil_iff.mp he] at hvalid
    have hnew : tx.getHash env ∉ txs.map (CTransaction.getHash env) :=
      hr.new_id hne (fun tx' hm hh => hinj tx' tx (htxs tx' hm) (hvtx tx (by simp)) hh) ha.unspent
    have hpost := hr.post (posOf_not_null pindex b.nTxPos) (outputs_lt hvalid) hnew ha.distinct
      ha.unspent
    have hall := ih (txs ++ [tx]) (b.post env pindex tx) hpost
      (by
        intro t ht
        rcases List.mem_append.mp ht with ht | ht
        · exact htxs t ht
        · rw [List.mem_singleton.mp ht]
          exact hvtx tx (by simp))
      (fun t ht => hvtx t (by simp [ht])) (fun t ht => hcheck t (by simp [ht]))
      (fun x hx => hadm x (by simp [hx]))
    simpa using hall

end Records

end Ledger

section Chains

variable {env : Env} (T : ChainTree env)

/-- The transactions that were connected: all but those of the genesis block. -/
def connectedTxs : CBlockIndex → List CTransaction
  | .genesis _ => []
  | .child f p => connectedTxs p ++ (T.block (.child f p)).vtx

def indexOf : CBlockIndex → TxIndexMap
  | .genesis _ => fun _ => none
  | .child f p => (posted env (indexOf p) (T.block (.child f p)) (.child f p)).index

/-- Every block of the chain passes the checks of `ConnectBlock` on the index of the chain
below it. -/
def ValidChain : CBlockIndex → Prop
  | .genesis _ => True
  | .child f p => ValidChain p ∧
    ∃ ctx acc, Connects env ctx (indexOf T p) (T.block (.child f p)) (.child f p) acc

variable {T}

def CarriesHeight (tx : CTransaction) (n : Nat) : Prop :=
  ∃ txin rest, tx.vin = txin :: rest ∧ pushInt64 n <+: txin.scriptSig

theorem CarriesHeight.unique {tx : CTransaction} {a b : Nat} (ha : CarriesHeight tx a)
    (hb : CarriesHeight tx b) (hla : a < 2 ^ 64) (hlb : b < 2 ^ 64) : a = b := by
  obtain ⟨txin, rest, hv, hpa⟩ := ha
  obtain ⟨txin', rest', hv', hpb⟩ := hb
  rw [hv] at hv'
  cases hv'
  exact pushInt64_unique hla hlb hpa hpb

theorem coinbase_carries {block : CBlock} {n : Nat} {coinbase : CTransaction}
    {rest : List CTransaction} (h : block.coinbaseHasHeight n = true)
    (hv : block.vtx = coinbase :: rest) : CarriesHeight coinbase n := by
  unfold CBlock.coinbaseHasHeight at h
  rw [hv] at h
  cases hin : coinbase.vin with
  | nil => simp [hin] at h
  | cons txin more =>
    simp only [hin] at h
    exact ⟨txin, more, hin, List.isPrefixOf_iff_prefix.mp h⟩

/-- What holds of the transactions of a valid chain. -/
structure ChainRecords (T : ChainTree env) (p : CBlockIndex) : Prop where
  records : Records env (indexOf T p) (connectedTxs T p)
  seen : ∀ tx ∈ connectedTxs T p, ∃ a, T.mem a ∧ tx ∈ (T.block a).vtx
  heights : ∀ tx ∈ connectedTxs T p, tx.isCoinBase = true → ∃ n ≤ p.nHeight, CarriesHeight tx n

theorem chain_records {p : CBlockIndex} (hp : T.mem p) (hv : ValidChain T p) :
    ChainRecords T p := by
  induction p with
  | genesis f =>
    exact ⟨records_nil, fun _ h => absurd h List.not_mem_nil,
      fun _ h => absurd h List.not_mem_nil⟩
  | child f p ih =>
    obtain ⟨hvalid, ctx, acc, hc⟩ := hv
    have hlt : p.nHeight + 1 < 2 ^ 31 := T.height_lt hp
    have hbelow := ih (T.parent_mem hp) hvalid
    obtain ⟨coinbase, rest, hv, hcb, hrest⟩ := hc.layout.coinbase
    have hcarries := coinbase_carries (T.coinbase_height hp) hv
    have hmem : ∀ tx ∈ coinbase :: rest, tx ∈ (T.block (.child f p)).vtx := fun tx h => hv ▸ h
    -- two equal ids are two equal transactions, and a coinbase carries one height only
    have hinj : ∀ tx tx', (∃ a, T.mem a ∧ tx ∈ (T.block a).vtx) →
        (∃ a, T.mem a ∧ tx' ∈ (T.block a).vtx) → tx.getHash env = tx'.getHash env → tx = tx' := by
      rintro tx tx' ⟨a, ha, hta⟩ ⟨b, hb, htb⟩ hh
      exact T.txid_inj ha hb tx hta tx' htb hh
    have hnew : coinbase.getHash env ∉ (connectedTxs T p).map (CTransaction.getHash env) := by
      intro hm
      obtain ⟨tx, htx, hh⟩ := List.mem_map.mp hm
      obtain rfl := hinj tx coinbase (hbelow.seen tx htx) ⟨_, hp, hmem _ (by simp)⟩ hh
      obtain ⟨n, hn, hcn⟩ := hbelow.heights tx htx hcb
      have := hcn.unique hcarries (by omega) (by omega)
      omega
    have hspends : spends coinbase = [] := by simp [spends, hcb]
    have hfirst := hbelow.records.post (posOf_not_null (.child f p)
      (opened (indexOf T p) (T.block (.child f p)) (.child f p)).nTxPos)
      (outputs_lt (hc.layout.valid coinbase (hmem _ (by simp)))) hnew (by simp [hspends])
      (by simp [hspends])
    have hadm := hc.admits
    rw [hv] at hadm
    have hall := Records.post_all (.child f p) ctx.mempool
      (fun tx => ∃ a, T.mem a ∧ tx ∈ (T.block a).vtx) hinj rest (connectedTxs T p ++ [coinbase])
      ((opened (indexOf T p) (T.block (.child f p)) (.child f p)).post env (.child f p) coinbase)
      hfirst
      (by
        intro tx htx
        rcases List.mem_append.mp htx with htx | htx
        · exact hbelow.seen tx htx
        · rw [List.mem_singleton.mp htx]
          exact ⟨_, hp, hmem _ (by simp)⟩)
      (fun tx htx => ⟨_, hp, hmem _ (by simp [htx])⟩)
      (fun tx htx => ⟨hrest tx htx, hc.layout.valid tx (hmem _ (by simp [htx]))⟩)
      (fun x hx => hadm x (by simp [hx]))
    refine ⟨?_, ?_, ?_⟩
    · simp only [indexOf, connectedTxs, posted, hv, List.foldl_cons]
      simpa using hall
    · intro tx htx
      rcases List.mem_append.mp htx with htx | htx
      · exact hbelow.seen tx htx
      · exact ⟨_, hp, htx⟩
    · intro tx htx hcoin
      rcases List.mem_append.mp htx with htx | htx
      · obtain ⟨n, hn, hcn⟩ := hbelow.heights tx htx hcoin
        exact ⟨n, hn.trans (Nat.le_succ _), hcn⟩
      · rw [hv] at htx
        rcases List.mem_cons.mp htx with rfl | htx
        · exact ⟨p.nHeight + 1, le_rfl, hcarries⟩
        · rw [hrest tx htx] at hcoin
          cases hcoin

/-- Transactions without inputs in front do not matter. -/
theorem SoundChain.after_coinbases {g txs : List CTransaction} (h : SoundChain env txs)
    (hg : ∀ tx ∈ g, tx.isCoinBase = true) : SoundChain env (g ++ txs) := by
  have hnone : ∀ tx ∈ g, spends tx = [] := fun tx hm => by simp [spends, hg tx hm]
  constructor
  · rw [List.flatMap_append, List.flatMap_eq_nil_iff.mpr hnone, List.nil_append]
    exact h.once
  · intro pre tx post hsplit o ho
    rcases List.append_eq_append_iff.mp hsplit with ⟨mid, rfl, hmid⟩ | ⟨mid, hmid, hpost⟩
    · obtain ⟨prev, hm, hh⟩ := h.earlier mid tx post hmid o ho
      exact ⟨prev, List.mem_append_right _ hm, hh⟩
    · cases mid with
      | nil =>
        obtain ⟨prev, hm, _⟩ := h.earlier [] tx post hpost.symm o ho
        cases hm
      | cons x mid =>
        cases hpost
        rw [hnone tx (by simp [hmid])] at ho
        cases ho

theorem chainTxs_split {p : CBlockIndex} (hp : T.mem p) :
    ∃ g, (∀ tx ∈ g, tx.isCoinBase = true) ∧ chainTxs T p = g ++ connectedTxs T p := by
  induction p with
  | genesis f => exact ⟨_, T.genesis_txs hp, by simp [chainTxs, connectedTxs]⟩
  | child f p ih =>
    obtain ⟨g, hg, hsplit⟩ := ih (T.parent_mem hp)
    exact ⟨g, hg, by simp [chainTxs, connectedTxs, hsplit]⟩

theorem valid_chain_sound {p : CBlockIndex} (hp : T.mem p) (hv : ValidChain T p) :
    SoundChain env (chainTxs T p) := by
  obtain ⟨g, hg, hsplit⟩ := chainTxs_split hp
  rw [hsplit]
  exact (chain_records hp hv).records.sound.after_coinbases hg

/-- Undoing the last block of a valid chain gives the index of the chain below it. -/
theorem undo_indexOf {f : BlockFields} {p : CBlockIndex} (hp : T.mem (.child f p))
    (hv : ValidChain T (.child f p)) :
    (T.block (.child f p)).vtx.reverse.foldl (undoTx env) (indexOf T (.child f p)) =
      indexOf T p := by
  have hall := (chain_records hp hv).records.ids
  obtain ⟨hvalid, ctx, acc, hc⟩ := hv
  have hbelow := (chain_records (T.parent_mem hp) hvalid).records
  rw [indexOf, hc.undo.1]
  apply eraseAll_absent
  intro h hh
  apply hbelow.absent
  intro hm
  rw [connectedTxs, List.map_append, List.nodup_append] at hall
  exact hall.2.2 h hm h hh rfl

end Chains

section Moves

variable {env : Env} {host : Host} {T : ChainTree env}

/-- The index the node sees is that of the chain ending in `p`, which is valid. -/
structure IndexAt (T : ChainTree env) (db : CTxDB) (p : CBlockIndex) : Prop where
  index : db.txIndex = indexOf T p
  valid : ValidChain T p

theorem readBlockOf_block {a : CBlockIndex} {block : CBlock} (ha : T.mem a)
    (h : readBlockOf env host a = .ok block) : block = T.block a := by
  unfold readBlockOf at h
  split at h
  · cases h
  · simp only [readFromDisk, readBlockFromDisk, T.stored ha, bind_ok, check_ok, pure_ok] at h
    obtain ⟨b, ⟨_, _, rfl⟩, _, _, rfl⟩ := h
    rfl

theorem connectBlock_index {f : BlockFields} {p : CBlockIndex} {s t : State}
    (hs : IndexAt T s.txdb p)
    (h : connectBlock env host (T.block (.child f p)) (.child f p) false s = .ok () t) :
    IndexAt T t.txdb (.child f p) := by
  obtain ⟨acc, hacc, _, hindex⟩ := connectBlock_spec h
  have hc := connectBlockChecks_spec hacc
  rw [hs.index] at hindex hc
  exact ⟨hindex, hs.valid, _, acc, hc⟩

theorem connect_climb {a b : CBlockIndex} {l : List CBlockIndex} (hl : Climb a l b)
    (hb : T.mem b) : ∀ {v r : List CTransaction} {s t : State}, IndexAt T s.txdb a →
      l.foldlM (connectRound env host) v s = .ok r t → IndexAt T t.txdb b := by
  apply connect_climb_keeps (P := fun q s => IndexAt T s.txdb q) hl
  intro f q block s t hmem hread hconn hs
  obtain rfl := readBlockOf_block (T.ancestor_mem hb (hl.subset _ hmem)) hread
  exact connectBlock_index hs hconn

theorem disconnect_climb {a b : CBlockIndex} {l : List CBlockIndex} (hl : Climb a l b)
    (hb : T.mem b) : ∀ {v r : List CTransaction} {s t : State}, IndexAt T s.txdb b →
      l.reverse.foldlM (disconnectRound env host) v s = .ok r t → IndexAt T t.txdb a := by
  apply disconnect_climb_keeps (P := fun q s => IndexAt T s.txdb q) hl
  intro f q block s t hmem hread hdis hs
  have hq := T.ancestor_mem hb (hl.subset _ hmem)
  obtain rfl := readBlockOf_block hq hread
  refine ⟨?_, hs.valid.1⟩
  rw [(disconnectBlock_spec hdis).2.1, hs.index, undo_indexOf hq hs.valid]

/-- What is committed is the index of the chain ending in `p`. -/
structure CommittedAt (T : ChainTree env) (s : State) (p : CBlockIndex) : Prop where
  index : txIndexOf s.txdb.committed = indexOf T p
  valid : ValidChain T p

theorem CommittedAt.begin {s : State} {p : CBlockIndex} (h : CommittedAt T s p) :
    IndexAt T s.txnBegin.txdb p := ⟨h.index, h.valid⟩

theorem committed_after_write (db : CTxDB) (hash : uint256) :
    txIndexOf (db.writeHashBestChain hash).commit.committed = db.txIndex := by
  rw [Db.committed_commit]
  exact CTxDB.txIndex_writeHashBestChain db hash

theorem reorganize_index {b m : CBlockIndex} {s t : State} (hb : T.mem b) (hm : T.mem m)
    (hs : IndexAt T s.txdb b) (h : reorganize env host b m s = .ok () t) :
    CommittedAt T t m := by
  obtain ⟨pfork, vResurrect, vDelete, s₁, s₂, hfork, hd, hc, rfl⟩ := reorganize_ok h
  obtain ⟨hfb, hfm⟩ := findFork_mem hfork
  rw [← List.reverse_reverse (downTo pfork b)] at hd
  have h₁ := disconnect_climb (climb_downTo hfb) hb hs hd
  have h₂ := connect_climb (climb_downTo hfm) hm h₁ hc
  refine ⟨?_, h₂.valid⟩
  rw [afterSwitch_txdb, committed_after_write, h₂.index]

theorem setBestChainInner_index {f : BlockFields} {a : CBlockIndex} {s t : State}
    (hs : CommittedAt T s a)
    (h : setBestChainInner env host (T.block (.child f a)) (.child f a) s.txnBegin = .ok () t) :
    CommittedAt T t (.child f a) := by
  obtain ⟨s₁, hc, rfl⟩ := setBestChainInner_ok h
  have h₁ := connectBlock_index hs.begin hc
  refine ⟨?_, h₁.valid⟩
  change txIndexOf (s₁.txdb.writeHashBestChain _).commit.committed = _
  rw [committed_after_write, h₁.index]

theorem connectFurther_index {a q : CBlockIndex} {l : List CBlockIndex} (hl : Climb a l q)
    (hq : T.mem q) : ∀ {s : State}, CommittedAt T s a → connectsAll env host l s = true →
      CommittedAt T (connectFurther env host l s) q := by
  apply connectFurther_climb_keeps (P := fun q s => CommittedAt T s q) hl
  intro f p block s t hmem hread hi hs
  obtain rfl := readBlockOf_block (T.ancestor_mem hq (hl.subset _ hmem)) hread
  exact setBestChainInner_index hs hi

end Moves

section Runs

variable {env : Env} {host : Host} {T : ChainTree env}

/-- A reached state: no best block and an empty index, or the index of the best chain. -/
def Recorded (T : ChainTree env) (s : State) : Prop :=
  (Unstarted s ∧ txIndexOf s.txdb.committed = fun _ => none) ∨
    Settled T.toBlockTree s ∧ ∀ p, s.pindexBest = some p → CommittedAt T s p

theorem Recorded.settled {s : State} (h : Recorded T s) :
    Unstarted s ∨ Settled T.toBlockTree s := by
  rcases h with ⟨h, _⟩ | ⟨h, _⟩
  · exact .inl h
  · exact .inr h

theorem Recorded.at_best {s : State} {b : CBlockIndex} (h : Recorded T s)
    (hb : s.pindexBest = some b) : T.mem b ∧ CommittedAt T s b := by
  rcases h with ⟨hun, _⟩ | ⟨⟨q, hq, hmem, _⟩, hcommitted⟩
  · rw [hun.pindexBest] at hb
    cases hb
  · rw [hq] at hb
    cases hb
    exact ⟨hmem, hcommitted _ hq⟩

theorem moveBestChain_index {p : CBlockIndex} {s t : State} (hp : T.mem p) (hs : Recorded T s)
    (hpostponed : postponedConnect env host (T.block p) p s = true)
    (h : moveBestChain env host (T.block p) p s.txnBegin = .ok () t) : CommittedAt T t p := by
  cases moveBestChain_moved hp hs.settled h with
  | started f hf hun _ ht =>
    subst hf ht
    refine ⟨?_, trivial⟩
    have hempty : txIndexOf s.txdb.committed = fun _ => none := by
      rcases hs with ⟨_, hempty⟩ | ⟨⟨_, hb, _⟩, _⟩
      · exact hempty
      · rw [hun.pindexBest] at hb
        cases hb
    exact (committed_after_write s.txnBegin.txdb _).trans hempty
  | extended f q hf hbest _ hinner =>
    subst hf
    exact setBestChainInner_index (hs.at_best hbest).2 hinner
  | switched b r hbest hall hr ht =>
    subst ht
    obtain ⟨hbmem, hcommitted⟩ := hs.at_best hbest
    have hm := T.ancestor_mem hp (postpone_mem b.nChainTrust p)
    rw [hall] at hpostponed
    exact connectFurther_index (postpone_climb b.nChainTrust p) hp
      (reorganize_index hbmem hm hcommitted.begin hr) hpostponed

theorem Recorded.congr {s t : State} (h : Recorded T s) (hpnext : t.pnext = s.pnext)
    (hgen : t.pindexGenesisBlock = s.pindexGenesisBlock) (hbest : t.pindexBest = s.pindexBest)
    (hhash : t.hashBestChain = s.hashBestChain)
    (hdisk : t.txdb.committed .hashBestChain = s.txdb.committed .hashBestChain)
    (htx : ∀ h, t.txdb.committed (.tx h) = s.txdb.committed (.tx h)) : Recorded T t := by
  have hindex : txIndexOf t.txdb.committed = txIndexOf s.txdb.committed := funext htx
  rcases h with ⟨hun, hempty⟩ | ⟨hset, hcommitted⟩
  · exact .inl ⟨hun.congr hpnext hgen hbest hhash, hindex.trans hempty⟩
  · refine .inr ⟨hset.congr hpnext hgen hbest hhash hdisk, ?_⟩
    intro p hp
    have hc := hcommitted p (hbest ▸ hp)
    exact ⟨hindex.trans hc.index, hc.valid⟩

theorem Reached.recorded {s : State} (h : Reached T.toBlockTree s) : Recorded T s := by
  induction h with
  | fresh h =>
    exact .inl ⟨⟨h.pindexGenesisBlock, h.pindexBest, h.hashBestChain, h.pnext⟩,
      funext h.txindex⟩
  | succeeded _ hp h hpostponed ih =>
    refine .inr ⟨(setBestChain_settles hp ih.settled h).1 hpostponed, ?_⟩
    obtain ⟨r, hmove, rfl⟩ := setBestChain_ok h
    rintro q ⟨⟩
    have hc := moveBestChain_index hp ih hpostponed hmove
    exact ⟨hc.index, hc.valid⟩
  | failed _ h ih =>
    have hu := setBestChain_error_untouched h
    exact ih.congr hu.pnext hu.pindexGenesisBlock hu.pindexBest hu.hashBestChain
      (hu.committed _ (by simp)) (fun k => hu.committed _ (by simp))
  | aside _ h ih =>
    exact ih.congr h.pnext h.pindexGenesisBlock h.pindexBest h.hashBestChain h.best h.txindex

/-- In every state reached by calls that could connect what they postponed, the best chain
spends no output twice and no output before it exists. -/
theorem best_chain_sound {s : State} (hs : Reached T.toBlockTree s) {p : CBlockIndex}
    (hp : s.pindexBest = some p) : SoundChain env (chainTxs T p) := by
  obtain ⟨hmem, hcommitted⟩ := hs.recorded.at_best hp
  exact valid_chain_sound hmem hcommitted.valid

end Runs

namespace Sample

def chainTree : ChainTree treeEnv where
  toBlockTree := tree
  height_lt {a} ha := by
    have hall : ∀ a ∈ blocks.map Prod.fst, a.nHeight < 2 ^ 31 := by decide
    exact hall a ha
  stored {a} ha := by
    have hall : ∀ a ∈ blocks.map Prod.fst,
        treeEnv.readBlock a.fields.nFile a.fields.nBlockPos = some (blockAt a) := by
      decide
    exact hall a ha
  coinbase_height {f p} h := by
    have hall : ∀ a ∈ blocks.map Prod.fst,
        a.pprev.all (fun p => (blockAt a).coinbaseHasHeight (p.nHeight + 1)) = true := by
      decide
    exact hall _ h
  txid_inj {a b} ha hb := by
    have hall : ∀ a ∈ blocks.map Prod.fst, ∀ b ∈ blocks.map Prod.fst,
        ∀ tx ∈ (blockAt a).vtx, ∀ tx' ∈ (blockAt b).vtx,
          tx.getHash treeEnv = tx'.getHash treeEnv → tx = tx' := by decide
    exact hall a ha b hb
  genesis_txs {f} h := by
    have hall : ∀ a ∈ blocks.map Prod.fst, a.pprev = none →
        ∀ tx ∈ (blockAt a).vtx, tx.isCoinBase = true := by decide
    exact hall _ h rfl

end Sample

theorem goodBlock_chain_sound :
    (Sample.call Sample.goodIndex Sample.started).pindexBest = some Sample.goodIndex ∧
      SoundChain Sample.treeEnv (chainTxs Sample.chainTree Sample.goodIndex) := by
  have hbest : (Sample.call Sample.goodIndex Sample.started).pindexBest =
      some Sample.goodIndex := by decide
  have hreached : Reached Sample.chainTree.toBlockTree
      (Sample.call Sample.goodIndex Sample.started) :=
    Sample.call_reached Sample.started_reached (by decide) (by decide) (by decide)
  exact ⟨hbest, best_chain_sound hreached hbest⟩

/-- Successful calls on the genesis block, a first block and then a block above a postponed
one: the best chain ends in a block that spends an output no transaction has. -/
theorem badBlock_chain_unsound :
    ∃ t, Reached Sample.chainTree.toBlockTree Sample.started ∧
      setBestChain Sample.treeEnv Sample.host (Sample.chainTree.block Sample.badIndex)
        Sample.badIndex Sample.started = .ok () t ∧
      t.pindexBest = some Sample.badIndex ∧
      ¬ SoundChain Sample.treeEnv (chainTxs Sample.chainTree Sample.badIndex) := by
  obtain ⟨_, h⟩ := ok_of_not_fails (x := setBestChain Sample.treeEnv Sample.host
    (Sample.tree.block Sample.badIndex) Sample.badIndex) (s := Sample.started) (by decide)
  refine ⟨_, Sample.started_reached, h, by decide, fun hsound => ?_⟩
  obtain ⟨prev, hm, hh, _⟩ := hsound.earlier
    [Sample.coinbase 0 0, Sample.coinbase 39 COIN, Sample.coinbase 49 0 2]
    (Sample.transfer 48 [⟨999, 0⟩] [1000]) [] (by decide) ⟨999, 0⟩ (by decide)
  have hnone : ∀ prev ∈ [Sample.coinbase 0 0, Sample.coinbase 39 COIN, Sample.coinbase 49 0 2],
      prev.getHash Sample.treeEnv ≠ 999 := by decide
  exact hnone prev hm hh

end Triangles
