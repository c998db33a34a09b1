import Triangles.Lib.Trace
import Triangles.Model.ConnectBlock
import Triangles.Model.TxDb

/-! The transaction index as a ledger: what spending, creating and undoing transactions
means for it, apart from how `ConnectBlock` goes about it. -/

namespace Triangles.Ledger

def mark (pos : CDiskTxPos) (V : TxIndexMap) (o : COutPoint) : TxIndexMap :=
  Function.update V o.hash ((V o.hash).map fun idx =>
    { idx with vSpent := idx.vSpent.set o.n.toNat pos })

def markAll (pos : CDiskTxPos) (V : TxIndexMap) (os : List COutPoint) : TxIndexMap :=
  os.foldl (mark pos) V

/-- The slot of the outpoint exists and is null. -/
def IsUnspent (V : TxIndexMap) (o : COutPoint) : Prop :=
  ∃ idx, V o.hash = some idx ∧ idx.vSpent[o.n.toNat]? = some .null

def HasSlot (V : TxIndexMap) (o : COutPoint) : Prop :=
  ∃ idx, V o.hash = some idx ∧ o.n.toNat < idx.vSpent.length

def NoUnspent (V : TxIndexMap) (h : uint256) : Prop := ∀ o, o.hash = h → ¬ IsUnspent V o

def eraseAll (V : TxIndexMap) (hs : List uint256) : TxIndexMap :=
  fun h => if h ∈ hs then none else V h

theorem IsUnspent.hasSlot {V : TxIndexMap} {o : COutPoint} (h : IsUnspent V o) : HasSlot V o := by
  obtain ⟨idx, hv, hn⟩ := h
  exact ⟨idx, hv, (List.getElem?_eq_some_iff.mp hn).1⟩

theorem mark_self (pos : CDiskTxPos) (V : TxIndexMap) (o : COutPoint) :
    mark pos V o o.hash = (V o.hash).map fun idx =>
      { idx with vSpent := idx.vSpent.set o.n.toNat pos } :=
  Function.update_self ..

theorem mark_other {pos : CDiskTxPos} {V : TxIndexMap} {o : COutPoint} {h : uint256}
    (hne : h ≠ o.hash) : mark pos V o h = V h :=
  Function.update_of_ne hne ..

theorem markAll_local {pos : CDiskTxPos} {V W : TxIndexMap} {h : uint256} (he : V h = W h)
    (os : List COutPoint) : markAll pos V os h = markAll pos W os h := by
  induction os generalizing V W with
  | nil => exact he
  | cons o os ih =>
    apply ih
    by_cases hh : h = o.hash
    · subst hh
      rw [mark_self, mark_self, he]
    · rw [mark_other hh, mark_other hh, he]

theorem markAll_outside {pos : CDiskTxPos} {V : TxIndexMap} {os : List COutPoint} {h : uint256}
    (hh : ∀ o ∈ os, o.hash ≠ h) : markAll pos V os h = V h := by
  induction os generalizing V with
  | nil => rfl
  | cons o os ih =>
    have hne : h ≠ o.hash := fun he => hh o (by simp) he.symm
    exact (ih (fun q hq => hh q (by simp [hq]))).trans (mark_other hne)

theorem mark_none {pos : CDiskTxPos} {V : TxIndexMap} {o : COutPoint} {h : uint256}
    (hn : V h = none) : mark pos V o h = none := by
  by_cases hh : h = o.hash
  · subst hh
    rw [mark_self, hn]
    rfl
  · rw [mark_other hh, hn]

theorem markAll_none {pos : CDiskTxPos} {V : TxIndexMap} {os : List COutPoint} {h : uint256}
    (hn : V h = none) : markAll pos V os h = none := by
  induction os generalizing V with
  | nil => exact hn
  | cons o os ih => exact ih (mark_none hn)

/-- Marking keeps the position of an entry and the number of its slots. -/
theorem mark_entry (pos : CDiskTxPos) {V : TxIndexMap} (o : COutPoint) {h : uint256}
    {idx : CTxIndex} (hv : V h = some idx) :
    ∃ idx', mark pos V o h = some idx' ∧ idx'.pos = idx.pos ∧
      idx'.vSpent.length = idx.vSpent.length := by
  by_cases hh : h = o.hash
  · subst hh
    exact ⟨{ idx with vSpent := idx.vSpent.set o.n.toNat pos }, by rw [mark_self, hv]; rfl, rfl,
      by simp⟩
  · exact ⟨idx, by rw [mark_other hh, hv], rfl, rfl⟩

theorem markAll_entry (pos : CDiskTxPos) {V : TxIndexMap} (os : List COutPoint) {h : uint256}
    {idx : CTxIndex} (hv : V h = some idx) :
    ∃ idx', markAll pos V os h = some idx' ∧ idx'.pos = idx.pos ∧
      idx'.vSpent.length = idx.vSpent.length := by
  induction os generalizing V idx with
  | nil => exact ⟨idx, hv, rfl, rfl⟩
  | cons o os ih =>
    obtain ⟨idx₁, h₁, hp₁, hl₁⟩ := mark_entry pos o hv
    obtain ⟨idx₂, h₂, hp₂, hl₂⟩ := ih h₁
    exact ⟨idx₂, h₂, hp₂.trans hp₁, hl₂.trans hl₁⟩

theorem HasSlot.mark {pos : CDiskTxPos} {V : TxIndexMap} {o q : COutPoint} (h : HasSlot V q) :
    HasSlot (Ledger.mark pos V o) q := by
  obtain ⟨idx, hv, hn⟩ := h
  obtain ⟨idx', hv', _, hl⟩ := mark_entry pos o hv
  exact ⟨idx', hv', hl ▸ hn⟩

/-- Marking makes no slot. -/
theorem HasSlot.of_mark {pos : CDiskTxPos} {V : TxIndexMap} {o q : COutPoint}
    (h : HasSlot (Ledger.mark pos V o) q) : HasSlot V q := by
  obtain ⟨idx', hv', hn⟩ := h
  cases hv : V q.hash with
  | none =>
    rw [mark_none hv] at hv'
    cases hv'
  | some idx =>
    obtain ⟨idx'', hv'', _, hl⟩ := mark_entry pos o hv
    rw [hv'] at hv''
    cases hv''
    exact ⟨idx, hv, hl ▸ hn⟩

/-- Marking one outpoint leaves the others as they were. -/
theorem unspent_mark_ne {pos : CDiskTxPos} {V : TxIndexMap} {o q : COutPoint} (hne : q ≠ o) :
    IsUnspent (mark pos V o) q ↔ IsUnspent V q := by
  by_cases hh : q.hash = o.hash
  · have hn : o.n.toNat ≠ q.n.toNat := by
      intro he
      apply hne
      obtain ⟨qh, qn⟩ := q
      obtain ⟨oh, on⟩ := o
      simp only [COutPoint.mk.injEq]
      exact ⟨hh, (UInt32.toNat_inj.mp he).symm⟩
    unfold IsUnspent
    rw [hh, mark_self]
    constructor
    · intro h
      obtain ⟨idx', he, hs⟩ := h
      obtain ⟨idx, hv, rfl⟩ := Option.map_eq_some_iff.mp he
      exact ⟨idx, hv, by simpa [List.getElem?_set_ne hn] using hs⟩
    · intro h
      obtain ⟨idx, hv, hs⟩ := h
      exact ⟨_, by rw [hv]; rfl, by simpa [List.getElem?_set_ne hn] using hs⟩
  · unfold IsUnspent
    rw [mark_other hh]

theorem not_unspent_mark {pos : CDiskTxPos} (hp : pos.isNull = false) (V : TxIndexMap)
    (o : COutPoint) : ¬ IsUnspent (mark pos V o) o := by
  intro h
  obtain ⟨idx', he, hs⟩ := h
  rw [mark_self] at he
  obtain ⟨idx, _, rfl⟩ := Option.map_eq_some_iff.mp he
  obtain ⟨hlt, hg⟩ := List.getElem?_eq_some_iff.mp hs
  simp only [List.getElem_set_self] at hg
  rw [hg] at hp
  exact absurd hp (by decide)

/-- Marking with a real position creates no unspent outpoint. -/
theorem unspent_of_mark {pos : CDiskTxPos} (hp : pos.isNull = false) {V : TxIndexMap}
    {o q : COutPoint} (h : IsUnspent (mark pos V o) q) : q ≠ o ∧ IsUnspent V q := by
  have hne : q ≠ o := fun he => not_unspent_mark hp V o (he ▸ h)
  exact ⟨hne, (unspent_mark_ne hne).mp h⟩

theorem unspent_markAll {pos : CDiskTxPos} (hp : pos.isNull = false) {V : TxIndexMap}
    {os : List COutPoint} {q : COutPoint} :
    IsUnspent (markAll pos V os) q ↔ q ∉ os ∧ IsUnspent V q := by
  induction os generalizing V with
  | nil => simp [markAll]
  | cons o os ih =>
    change IsUnspent (markAll pos (mark pos V o) os) q ↔ _
    rw [ih]
    constructor
    · intro h
      obtain ⟨hm, hu⟩ := h
      obtain ⟨hne, hu⟩ := unspent_of_mark hp hu
      exact ⟨by simp [hne, hm], hu⟩
    · intro h
      obtain ⟨hm, hu⟩ := h
      simp only [List.mem_cons, not_or] at hm
      exact ⟨hm.2, (unspent_mark_ne hm.1).mpr hu⟩

theorem mark_comm {p q : CDiskTxPos} {V : TxIndexMap} {a b : COutPoint} (hne : a ≠ b) :
    mark p (mark q V a) b = mark q (mark p V b) a := by
  by_cases hh : a.hash = b.hash
  · have hn : a.n.toNat ≠ b.n.toNat := by
      intro he
      apply hne
      obtain ⟨ah, an⟩ := a
      obtain ⟨bh, bn⟩ := b
      simp only [COutPoint.mk.injEq]
      exact ⟨hh, UInt32.toNat_inj.mp he⟩
    funext h
    unfold mark
    rw [hh]
    by_cases hk : h = b.hash
    · subst hk
      simp only [Function.update_self, Option.map_map]
      congr 1
      funext idx
      simp only [Function.comp_apply]
      rw [List.set_comm _ _ hn]
    · simp only [Function.update_of_ne hk]
  · funext h
    by_cases hb : h = b.hash
    · subst hb
      rw [mark_self, mark_other (Ne.symm hh), mark_other (Ne.symm hh), mark_self]
    · by_cases ha : h = a.hash
      · subst ha
        rw [mark_other hb, mark_self, mark_self, mark_other hh]
      · rw [mark_other hb, mark_other ha, mark_other ha, mark_other hb]

/-- Clearing a slot that was null before it was written restores the entry. -/
theorem mark_null_mark {p : CDiskTxPos} {V : TxIndexMap} {o : COutPoint} (hu : IsUnspent V o) :
    mark .null (mark p V o) o = V := by
  obtain ⟨idx, hv, hs⟩ := hu
  funext h
  by_cases hh : h = o.hash
  · subst hh
    rw [mark_self, mark_self, hv]
    obtain ⟨hlt, hg⟩ := List.getElem?_eq_some_iff.mp hs
    simp only [Option.map_some, List.set_set]
    rw [← hg, List.set_getElem_self]
  · rw [mark_other hh, mark_other hh]

theorem markAll_mark_comm {p q : CDiskTxPos} {V : TxIndexMap} {o : COutPoint}
    {os : List COutPoint} (hm : o ∉ os) :
    mark q (markAll p V os) o = markAll p (mark q V o) os := by
  induction os generalizing V with
  | nil => rfl
  | cons a os ih =>
    simp only [List.mem_cons, not_or] at hm
    change mark q (markAll p (mark p V a) os) o = markAll p (mark p (mark q V o) a) os
    rw [ih hm.2, mark_comm (Ne.symm hm.1)]

/-- Unspending what was spent, in the same order, restores the index. -/
theorem markAll_null_markAll {p : CDiskTxPos} {V : TxIndexMap} {os : List COutPoint}
    (hd : os.Nodup) (hu : ∀ o ∈ os, IsUnspent V o) : markAll .null (markAll p V os) os = V := by
  induction os generalizing V with
  | nil => rfl
  | cons o os ih =>
    obtain ⟨hm, hd⟩ := List.nodup_cons.mp hd
    change markAll .null (mark .null (markAll p (mark p V o) os) o) os = V
    rw [markAll_mark_comm hm, mark_null_mark (hu o (by simp))]
    exact ih hd (fun q hq => hu q (by simp [hq]))

end Triangles.Ledger

/-! A block as a list of entries posted to a book: each transaction spends outpoints of the
index it meets and adds its own outputs. -/

namespace Triangles.Ledger

open Trace

def spends (tx : CTransaction) : List COutPoint :=
  if tx.isCoinBase then [] else tx.vin.map CTxIn.prevout

def applyTx (env : Env) (pos : CDiskTxPos) (V : TxIndexMap) (tx : CTransaction) : TxIndexMap :=
  Function.update (markAll pos V (spends tx)) (tx.getHash env) (some (.fresh pos tx.vout.length))

def undoTx (env : Env) (V : TxIndexMap) (tx : CTransaction) : TxIndexMap :=
  Function.update (markAll .null V (spends tx)) (tx.getHash env) none

/-- The transaction index while a block is being connected, and where its next
transaction lies. -/
structure Book where
  index : TxIndexMap
  nTxPos : UInt32

def Book.post (env : Env) (pindex : CBlockIndex) (b : Book) (tx : CTransaction) : Book where
  index := applyTx env (pindex.posOf b.nTxPos) b.index tx
  nTxPos := nextTxPos false b.nTxPos tx

def opened (V : TxIndexMap) (block : CBlock) (pindex : CBlockIndex) : Book :=
  ⟨V, firstTxPos block pindex false⟩

def posted (env : Env) (V : TxIndexMap) (block : CBlock) (pindex : CBlockIndex) : Book :=
  block.vtx.foldl (Book.post env pindex) (opened V block pindex)

def stored (block : CBlock) (pindex : CBlockIndex) : List (CDiskTxPos × CTransaction) :=
  (trace (nextTxPos false) (firstTxPos block pindex false) block.vtx).map fun x =>
    (pindex.posOf x.1, x.2)

def prevTx (env : Env) (pool : CTxMemPool) (V : TxIndexMap) (hash : uint256) :
    Option CTransaction :=
  match V hash with
  | none => none
  | some txindex =>
    if txindex.pos = .inMempool then pool.lookup hash else env.readTx txindex.pos

def prevOut (env : Env) (pool : CTxMemPool) (V : TxIndexMap) (o : COutPoint) : Option CTxOut :=
  (prevTx env pool V o.hash).bind fun txPrev => txPrev.vout[o.n.toNat]?

def spentValue (env : Env) (pool : CTxMemPool) (V : TxIndexMap) (o : COutPoint) : Int :=
  ((prevOut env pool V o).map CTxOut.nValue).getD 0

def valueIn (env : Env) (pool : CTxMemPool) (V : TxIndexMap) (tx : CTransaction) : Int :=
  ((spends tx).map (spentValue env pool V)).sum

/-- What the checks leave of a transaction that meets the index `V`. -/
structure Admits (env : Env) (pool : CTxMemPool) (V : TxIndexMap) (tx : CTransaction) : Prop where
  distinct : (spends tx).Nodup
  unspent : ∀ o ∈ spends tx, IsUnspent V o
  found : ∀ o ∈ spends tx, ∃ txout, prevOut env pool V o = some txout
  pays : tx.isCoinBase = false → tx.isCoinStake = false → tx.valueOut ≤ valueIn env pool V tx

theorem posOf_not_null (pindex : CBlockIndex) (n : UInt32) : (pindex.posOf n).isNull = false := by
  simpa [CBlockIndex.posOf, CDiskTxPos.isNull] using pindex.fields.nFile_ne

/-- Blocks lie behind their index header, so no position of theirs refers to the pool. -/
theorem posOf_ne_inMempool (pindex : CBlockIndex) (n : UInt32) :
    pindex.posOf n ≠ .inMempool := by
  intro h
  have hb : pindex.fields.nBlockPos = 1 := congrArg CDiskTxPos.nBlockPos h
  have := pindex.fields.nBlockPos_ge
  rw [hb] at this
  exact absurd this (by decide)

/-- Spent slots stay where they are while real positions are written, except under the
posted transaction's own id. -/
theorem NoUnspent.applyTx {env : Env} {pos : CDiskTxPos} (hp : pos.isNull = false)
    {V : TxIndexMap} {h : uint256} (hv : NoUnspent V h) {tx : CTransaction}
    (hne : h ≠ tx.getHash env) : NoUnspent (Ledger.applyTx env pos V tx) h := by
  rintro o rfl ⟨idx, hi, hs⟩
  unfold Ledger.applyTx at hi
  rw [Function.update_of_ne hne] at hi
  exact hv o rfl ((unspent_markAll hp).mp ⟨idx, hi, hs⟩).2

/-- A spent output is never one of a transaction still to come. -/
theorem hash_of_unspent {V : TxIndexMap} {hs : List uint256} (hn : ∀ h ∈ hs, NoUnspent V h)
    {o : COutPoint} (hu : IsUnspent V o) : o.hash ∉ hs :=
  fun hm => hn o.hash hm o rfl hu

theorem eraseAll_of_mem {V : TxIndexMap} {hs : List uint256} {h : uint256} (hm : h ∈ hs) :
    eraseAll V hs h = none := if_pos hm

theorem eraseAll_of_not_mem {V : TxIndexMap} {hs : List uint256} {h : uint256} (hm : h ∉ hs) :
    eraseAll V hs h = V h := if_neg hm

/-- Undoing one transaction below ids that are erased already. -/
theorem undoTx_applyTx {env : Env} {pos : CDiskTxPos} {V : TxIndexMap} {tx : CTransaction}
    (hd : (spends tx).Nodup) (hu : ∀ o ∈ spends tx, IsUnspent V o) (hs : List uint256) :
    undoTx env (eraseAll (applyTx env pos V tx) hs) tx = eraseAll V (tx.getHash env :: hs) := by
  funext k
  unfold undoTx
  by_cases hk : k = tx.getHash env
  · rw [hk, Function.update_self, eraseAll_of_mem (by simp)]
  · rw [Function.update_of_ne hk]
    by_cases hm : k ∈ hs
    · rw [eraseAll_of_mem (List.mem_cons_of_mem _ hm), markAll_none (eraseAll_of_mem hm)]
    · have hl : eraseAll (applyTx env pos V tx) hs k = markAll pos V (spends tx) k := by
        rw [eraseAll_of_not_mem hm]
        exact Function.update_of_ne hk ..
      rw [markAll_local hl, markAll_null_markAll hd hu, eraseAll_of_not_mem (by simp [hk, hm])]

theorem HasSlot.markAll {V : TxIndexMap} {q : COutPoint} (h : HasSlot V q) (pos : CDiskTxPos)
    (os : List COutPoint) : HasSlot (Ledger.markAll pos V os) q := by
  induction os generalizing V with
  | nil => exact h
  | cons o os ih => exact ih h.mark

/-- The slots a transaction spent are still there when it is undone. -/
theorem slot_after_applyTx {env : Env} {pos : CDiskTxPos} {V : TxIndexMap} {tx : CTransaction}
    {hs : List uint256} {o : COutPoint} (hu : IsUnspent V o) (ho : o.hash ∉ tx.getHash env :: hs) :
    HasSlot (eraseAll (applyTx env pos V tx) hs) o := by
  simp only [List.mem_cons, not_or] at ho
  obtain ⟨idx, hv, hn⟩ := hu.hasSlot.markAll pos (spends tx)
  refine ⟨idx, ?_, hn⟩
  rw [eraseAll_of_not_mem ho.2, ← hv]
  exact Function.update_of_ne ho.1 ..

section Undo

variable {env : Env} {pindex : CBlockIndex}

/-- Undoing the posted transactions in reverse order finds every slot it needs and gives
back the index without their ids. The induction goes forward over the transactions: the ones
after the first are undone before it, and none of them can own a slot it spent. -/
theorem undo_posted (vtx : List CTransaction) (b : Book)
    (hx : ∀ x ∈ trace (Book.post env pindex) b vtx,
      (spends x.2).Nodup ∧ ∀ o ∈ spends x.2, IsUnspent x.1.index o)
    (hd : (vtx.map (CTransaction.getHash env)).Nodup)
    (hn : ∀ h ∈ vtx.map (CTransaction.getHash env), NoUnspent b.index h) :
    vtx.reverse.foldl (undoTx env) (vtx.foldl (Book.post env pindex) b).index =
        eraseAll b.index (vtx.map (CTransaction.getHash env)) ∧
      ∀ x ∈ trace (undoTx env) (vtx.foldl (Book.post env pindex) b).index vtx.reverse,
        ∀ o ∈ spends x.2, HasSlot x.1 o := by
  induction vtx generalizing b with
  | nil =>
    refine ⟨?_, by simp⟩
    funext h
    simp [eraseAll]
  | cons tx rest ih =>
    obtain ⟨hm, hd⟩ := List.nodup_cons.mp hd
    obtain ⟨hdistinct, hunspent⟩ := hx (b, tx) (by simp)
    have hn' : ∀ h ∈ rest.map (CTransaction.getHash env),
        NoUnspent (b.post env pindex tx).index h := fun h hh =>
      (hn h (by simp [hh])).applyTx (posOf_not_null pindex _) (fun he => hm (he ▸ hh))
    obtain ⟨hundo, hslots⟩ := ih (b.post env pindex tx)
      (fun x hx' => hx x (by simp [hx'])) hd hn'
    rw [List.foldl_cons, List.reverse_cons, List.foldl_append, trace_append, hundo]
    refine ⟨undoTx_applyTx hdistinct hunspent _, ?_⟩
    intro x hx' o ho
    rcases List.mem_append.mp hx' with hrest | hlast
    · exact hslots x hrest o ho
    · simp only [trace_cons, trace_nil, List.mem_singleton] at hlast
      subst hlast
      have hu := hunspent o ho
      exact slot_after_applyTx hu (hash_of_unspent hn hu)

end Undo

/-- Erasing entries without unspent slots keeps the unspent outpoints. -/
theorem unspent_eraseAll {V : TxIndexMap} {hs : List uint256} (hn : ∀ h ∈ hs, NoUnspent V h)
    (o : COutPoint) : IsUnspent (eraseAll V hs) o ↔ IsUnspent V o := by
  constructor
  · intro h
    obtain ⟨idx, hv, hs'⟩ := h
    by_cases hm : o.hash ∈ hs
    · rw [eraseAll_of_mem hm] at hv
      cases hv
    · exact ⟨idx, by rwa [eraseAll_of_not_mem hm] at hv, hs'⟩
  · intro hu
    obtain ⟨idx, hv, hs'⟩ := hu
    exact ⟨idx, by rw [eraseAll_of_not_mem (hash_of_unspent hn ⟨idx, hv, hs'⟩), hv], hs'⟩

theorem eraseAll_absent {V : TxIndexMap} {hs : List uint256} (hn : ∀ h ∈ hs, V h = none) :
    eraseAll V hs = V := by
  funext h
  by_cases hm : h ∈ hs
  · rw [eraseAll_of_mem hm, hn h hm]
  · exact eraseAll_of_not_mem hm

end Triangles.Ledger
