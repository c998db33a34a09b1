import Triangles.Model.TxDb
import Triangles.Proofs.LevelBatch

/-! The table in memory: the entries that batches put into it, and the answer for a key as of a
sequence. -/

namespace Triangles.LevelDb

open SkipList

def BatchOp.key : BatchOp → List UInt8
  | .put key _ => key
  | .delete key => key

def BatchOp.value? : BatchOp → Option (List UInt8)
  | .put _ value => some value
  | .delete _ => none

def BatchOp.type : BatchOp → UInt8
  | .put _ _ => kTypeValue
  | .delete _ => kTypeDeletion

structure Write where
  seq : Nat
  op : BatchOp
deriving DecidableEq

/-- A change whose entry can be read back. -/
def Write.Fits (w : Write) : Prop := w.seq < 2 ^ 56 ∧ w.op.Small

def Write.entry (w : Write) : List UInt8 :=
  MemTable.entry w.seq w.op.type w.op.key (w.op.value?.getD [])

instance : Std.TransCmp compareEntries :=
  inferInstanceAs (Std.TransCmp (compareLex (compareOn fun e => extractUserKey (entrySlice e))
    fun a b => compareOn (fun e => tagOf (entrySlice e)) b a))

/-! Entries. -/

theorem packSequenceAndType_eq (seq : Nat) (t : UInt8) :
    packSequenceAndType seq t = seq * 256 + t.toNat := by
  unfold packSequenceAndType
  rw [← Nat.shiftLeft_add_eq_or_of_lt (UInt8.toNat_lt t), Nat.shiftLeft_eq]

theorem extractUserKey_append (key : List UInt8) (tag : Nat) :
    extractUserKey (key ++ wordBytes 8 tag) = key := by
  simp [extractUserKey]

theorem tagOf_append (key : List UInt8) {tag : Nat} (h : tag < 2 ^ 64) :
    tagOf (key ++ wordBytes 8 tag) = tag := by
  have hmod : tag % 256 ^ 8 = tag := Nat.mod_eq_of_lt h
  simp only [tagOf, List.length_append, wordBytes_length, Nat.add_sub_cancel, List.drop_left,
    leValue_wordBytes, hmod]
  exact hmod

theorem entrySlice_put {value : List UInt8} (h : value.length < 2 ^ 32) (rest : List UInt8) :
    entrySlice (putLengthPrefixedSlice value ++ rest) = value := by
  simp [entrySlice, getLengthPrefixedSlice_put h]

theorem entryRest_put {value : List UInt8} (h : value.length < 2 ^ 32) (rest : List UInt8) :
    entryRest (putLengthPrefixedSlice value ++ rest) = rest := by
  simp [entryRest, getLengthPrefixedSlice_put h]

theorem BatchOp.Small.key {op : BatchOp} (h : op.Small) : op.key.length + 8 < 2 ^ 32 := by
  cases op with
  | put key value => exact h.1
  | delete key => exact h

theorem BatchOp.Small.value {op : BatchOp} (h : op.Small) :
    (op.value?.getD []).length < 2 ^ 32 := by
  cases op with
  | put key value => exact h.2
  | delete key => exact Nat.two_pow_pos 32

theorem Write.entrySlice_entry {w : Write} (h : w.Fits) :
    entrySlice w.entry = w.op.key ++ wordBytes 8 (packSequenceAndType w.seq w.op.type) := by
  apply entrySlice_put
  have hkey := h.2.key
  simpa using hkey

theorem Write.tag_lt {w : Write} (h : w.Fits) :
    packSequenceAndType w.seq w.op.type < 2 ^ 64 := by
  have hseq := h.1
  have htype := UInt8.toNat_lt w.op.type
  rw [packSequenceAndType_eq]
  omega

theorem Write.userKey {w : Write} (h : w.Fits) :
    extractUserKey (entrySlice w.entry) = w.op.key := by
  rw [Write.entrySlice_entry h, extractUserKey_append]

theorem Write.tag {w : Write} (h : w.Fits) :
    tagOf (entrySlice w.entry) = w.seq * 256 + w.op.type.toNat := by
  rw [Write.entrySlice_entry h, tagOf_append _ (Write.tag_lt h), packSequenceAndType_eq]

theorem Write.value {w : Write} (h : w.Fits) :
    entrySlice (entryRest w.entry) = w.op.value?.getD [] := by
  have hkey : (w.op.key ++ wordBytes 8 (packSequenceAndType w.seq w.op.type)).length < 2 ^ 32 := by
    have := h.2.key
    simpa using this
  have hrest : entryRest w.entry = putLengthPrefixedSlice (w.op.value?.getD []) ++ [] := by
    rw [List.append_nil]
    exact entryRest_put hkey _
  rw [hrest, entrySlice_put h.2.value]

theorem type_le (op : BatchOp) : op.type.toNat ≤ 1 := by
  cases op
  · exact le_refl 1
  · exact Nat.zero_le 1

theorem compareEntries_eq {w w' : Write} (h : w.Fits) (h' : w'.Fits) :
    compareEntries w.entry w'.entry = (compare w.op.key w'.op.key).then
      (compare (w'.seq * 256 + w'.op.type.toNat) (w.seq * 256 + w.op.type.toNat)) := by
  simp only [compareEntries, compareInternal, Write.userKey h, Write.userKey h', Write.tag h,
    Write.tag h']

/-- Where an entry stands against the key that is looked up: not in front of it when the user key
is behind, or is the same and the change is not too new. -/
theorem compare_lookupKey {w : Write} (h : w.Fits) {key : List UInt8} {seq : Nat}
    (hkey : key.length + 8 < 2 ^ 32) (hseq : seq < 2 ^ 56) :
    compareEntries w.entry (MemTable.lookupKey key seq) = .lt ↔
      compare w.op.key key = .lt ∨ w.op.key = key ∧ seq < w.seq := by
  have hslice : entrySlice (MemTable.lookupKey key seq) =
      key ++ wordBytes 8 (packSequenceAndType seq kTypeValue) := by
    have := @entrySlice_put (key ++ wordBytes 8 (packSequenceAndType seq kTypeValue))
      (by simpa using hkey) []
    rwa [List.append_nil] at this
  have htag : packSequenceAndType seq kTypeValue = seq * 256 + 1 := packSequenceAndType_eq seq _
  have hlt : packSequenceAndType seq kTypeValue < 2 ^ 64 := by
    rw [htag]
    omega
  have htype := type_le w.op
  simp only [compareEntries, compareInternal, hslice, extractUserKey_append, tagOf_append _ hlt,
    Write.userKey h, Write.tag h]
  rw [htag, Ordering.then_eq_lt, Std.compare_eq_iff_eq, Nat.compare_eq_lt]
  refine or_congr_right (and_congr_right fun _ => ?_)
  omega

/-! The table. -/

/-- A table that was filled with these changes, at any heights. -/
def Filled (mem : MemTable) (writes : List Write) : Prop :=
  ∃ items : List (Nat × List UInt8), mem = build compareEntries items ∧
    items.map Prod.snd = writes.map Write.entry ∧ ∀ p ∈ items, 0 < p.1

theorem filled_empty : Filled SkipList.empty [] := ⟨[], rfl, rfl, by simp⟩

theorem Filled.add {mem : MemTable} {writes : List Write} (h : Filled mem writes) {height : Nat}
    (hpos : 0 < height) (w : Write) :
    Filled (mem.add height w.seq w.op.type w.op.key (w.op.value?.getD [])) (writes ++ [w]) := by
  obtain ⟨items, rfl, hkeys, hitems⟩ := h
  refine ⟨items ++ [(height, w.entry)], ?_, by simp [hkeys], ?_⟩
  · rw [build_concat]
    rfl
  · intro p hp
    obtain hp | hp := List.mem_append.mp hp
    · exact hitems p hp
    · obtain rfl := List.mem_singleton.mp hp
      exact hpos

def seen (writes : List Write) (key : List UInt8) (seq : Nat) : List Write :=
  writes.filter fun w => w.op.key = key ∧ w.seq ≤ seq

theorem mem_seen {writes : List Write} {key : List UInt8} {seq : Nat} {w : Write} :
    w ∈ seen writes key seq ↔ w ∈ writes ∧ w.op.key = key ∧ w.seq ≤ seq := by
  simp [seen]

theorem getLast?_of_newest {writes : List Write} {w : Write}
    (hsorted : writes.Pairwise fun v w => v.seq < w.seq) (hw : w ∈ writes)
    (hnewest : ∀ v ∈ writes, v.seq ≤ w.seq) : writes.getLast? = some w := by
  obtain ⟨front, back, rfl⟩ := List.append_of_mem hw
  have hback : back = [] := by
    cases back with
    | nil => rfl
    | cons v back =>
      have hlt := (List.pairwise_cons.mp (List.pairwise_append.mp hsorted).2.1).1 v (by simp)
      have hle := hnewest v (by simp)
      omega
  simp [hback]

theorem Filled.get {mem : MemTable} {writes : List Write} (h : Filled mem writes)
    (hfits : ∀ w ∈ writes, w.Fits) (hsorted : writes.Pairwise fun v w => v.seq < w.seq)
    {key : List UInt8} {seq : Nat} (hkey : key.length + 8 < 2 ^ 32) (hseq : seq < 2 ^ 56) :
    mem.get key seq = (seen writes key seq).getLast?.map fun w => w.op.value? := by
  obtain ⟨items, rfl, hitems, hpos⟩ := h
  have hmem : ∀ e, e ∈ (build compareEntries items).keys ↔ ∃ w ∈ writes, w.entry = e := by
    intro e
    rw [build_keys, hitems, List.mem_map]
  have hnew : items.Pairwise fun p q => compareEntries q.2 p.2 ≠ .eq := by
    have hentries : (writes.map Write.entry).Pairwise fun p q => compareEntries q p ≠ .eq := by
      rw [List.pairwise_map]
      refine hsorted.imp_of_mem fun {v w} hv hw hlt heq => ?_
      rw [compareEntries_eq (hfits w hw) (hfits v hv), Ordering.then_eq_eq] at heq
      have htag := Nat.compare_eq_eq.mp heq.2
      have := type_le v.op
      have := type_le w.op
      omega
    rw [← hitems, List.pairwise_map] at hentries
    exact hentries
  obtain ⟨order, height, hordered⟩ := build_ordered items hpos hnew
  -- an entry that the key sees is not in front of the target
  have hsees : ∀ w ∈ seen writes key seq,
      compareEntries w.entry (MemTable.lookupKey key seq) ≠ .lt := by
    intro w hw hlt
    obtain ⟨hmemw, rfl, hle⟩ := mem_seen.mp hw
    rw [compare_lookupKey (hfits w hmemw) hkey hseq] at hlt
    obtain hlt | hlt := hlt
    · rw [@Std.ReflCmp.compare_self _ compare] at hlt
      cases hlt
    · omega
  unfold MemTable.get
  cases hseek : (build compareEntries items).seek compareEntries (MemTable.lookupKey key seq) with
  | none =>
    have hnone : seen writes key seq = [] := by
      rw [List.eq_nil_iff_forall_not_mem]
      intro w hw
      exact hsees w hw (hordered.seek_none.mp hseek _ ((hmem _).mpr ⟨w, (mem_seen.mp hw).1, rfl⟩))
    simp [hnone]
  | some e =>
    obtain ⟨he, hge, hleast⟩ := hordered.seek_some hseek
    obtain ⟨w, hw, rfl⟩ := (hmem e).mp he
    have hfit := hfits w hw
    dsimp only
    rw [Write.userKey hfit]
    by_cases heq : w.op.key = key
    · have hle : w.seq ≤ seq := by
        rw [Ne, compare_lookupKey hfit hkey hseq] at hge
        by_contra hlt
        exact hge (.inr ⟨heq, by omega⟩)
      -- every other change that the key sees is behind this one, so that it is older
      have hnewest : ∀ v ∈ seen writes key seq, v.seq ≤ w.seq := by
        intro v hv
        obtain ⟨hvw, hvkey, -⟩ := mem_seen.mp hv
        have hvw' := hleast _ ((hmem _).mpr ⟨v, hvw, rfl⟩) (hsees v hv)
        rw [compareEntries_eq (hfits v hvw) hfit, hvkey, heq,
          @Std.ReflCmp.compare_self _ compare, Ordering.eq_then, Ne, Nat.compare_eq_lt] at hvw'
        have := type_le v.op
        have := type_le w.op
        omega
      have hlast : (seen writes key seq).getLast? = some w :=
        getLast?_of_newest (hsorted.filter _) (mem_seen.mpr ⟨hw, heq, hle⟩) hnewest
      rw [hlast, if_pos heq, Write.tag hfit, Write.value hfit]
      have hone := type_le w.op
      have htype : (w.seq * 256 + w.op.type.toNat) % 256 = w.op.type.toNat := by omega
      rw [htype]
      obtain ⟨seq', op⟩ := w
      cases op <;> simp [BatchOp.type, BatchOp.value?, kTypeValue, kTypeDeletion]
    · have hnone : seen writes key seq = [] := by
        rw [List.eq_nil_iff_forall_not_mem]
        intro v hv
        obtain ⟨hvw, hvkey, -⟩ := mem_seen.mp hv
        apply hleast _ ((hmem _).mpr ⟨v, hvw, rfl⟩) (hsees v hv)
        rw [compareEntries_eq (hfits v hvw) hfit, hvkey]
        -- the entry that was found is of a later key
        have hafter : compare w.op.key key = .gt := by
          rw [Ne, compare_lookupKey hfit hkey hseq] at hge
          cases hc : compare w.op.key key with
          | lt => exact absurd (.inl hc) hge
          | eq => exact absurd (Std.compare_eq_iff_eq.mp hc) heq
          | gt => rfl
        rw [Std.OrientedCmp.gt_iff_lt.mp hafter]
        rfl
      simp [hnone, heq]

/-! Filling it from a batch. -/

def numbered : Nat → List BatchOp → List Write
  | _, [] => []
  | seq, op :: ops => ⟨seq, op⟩ :: numbered (seq + 1) ops

theorem numbered_append (seq : Nat) (ops more : List BatchOp) :
    numbered seq (ops ++ more) = numbered seq ops ++ numbered (seq + ops.length) more := by
  induction ops generalizing seq with
  | nil => rfl
  | cons op ops ih =>
    rw [List.cons_append, numbered, numbered, ih, List.length_cons, List.cons_append,
      Nat.add_right_comm, Nat.add_assoc]

theorem numbered_bounds {seq : Nat} {ops : List BatchOp} {w : Write} (hw : w ∈ numbered seq ops) :
    seq ≤ w.seq ∧ w.seq < seq + ops.length ∧ w.op ∈ ops := by
  induction ops generalizing seq with
  | nil => cases hw
  | cons op ops ih =>
    obtain rfl | hw := List.mem_cons.mp hw
    · simp
    · obtain ⟨hlow, hhigh, hop⟩ := ih hw
      simp only [List.length_cons, List.mem_cons]
      exact ⟨by omega, by omega, .inr hop⟩

theorem numbered_sorted (seq : Nat) (ops : List BatchOp) :
    (numbered seq ops).Pairwise fun v w => v.seq < w.seq := by
  induction ops generalizing seq with
  | nil => exact .nil
  | cons op ops ih =>
    refine List.pairwise_cons.mpr ⟨fun w hw => ?_, ih (seq + 1)⟩
    have := (numbered_bounds hw).1
    dsimp only
    omega

theorem headD_pos {heights : List Nat} (h : ∀ n ∈ heights, 0 < n) : 0 < heights.headD 1 := by
  cases heights with
  | nil => exact Nat.one_pos
  | cons n _ => exact h n (by simp)

theorem handle_eq (s : MemTable.Inserter) (op : BatchOp) :
    s.handle op = ⟨s.sequence_ + 1,
      s.mem_.add (s.heights.headD 1) s.sequence_ op.type op.key (op.value?.getD []),
      s.heights.tail⟩ := by
  cases op <;> rfl

theorem Filled.handle_all {ops : List BatchOp} {s : MemTable.Inserter} {writes : List Write}
    (h : Filled s.mem_ writes) (hpos : ∀ n ∈ s.heights, 0 < n) :
    Filled (ops.foldl MemTable.Inserter.handle s).mem_ (writes ++ numbered s.sequence_ ops) ∧
      ∀ n ∈ (ops.foldl MemTable.Inserter.handle s).heights, 0 < n := by
  induction ops generalizing s writes with
  | nil => simpa [numbered] using ⟨h, hpos⟩
  | cons op ops ih =>
    rw [List.foldl_cons, handle_eq]
    have hadd := h.add (headD_pos hpos) ⟨s.sequence_, op⟩
    have hstep := ih (s := ⟨s.sequence_ + 1, _, s.heights.tail⟩) hadd
      fun n hn => hpos n (List.mem_of_mem_tail hn)
    rwa [List.append_assoc] at hstep

theorem Filled.insertInto {b : WriteBatch} {seq : Nat} {ops : List BatchOp} {mem : MemTable}
    {writes : List Write} {heights : List Nat} (h : Filled mem writes) (hb : Holds b seq ops)
    (hsmall : ∀ op ∈ ops, op.Small) (hn : ops.length < 2 ^ 31) (hseq : seq < 2 ^ 64)
    (hpos : ∀ n ∈ heights, 0 < n) :
    (MemTable.insertInto b mem heights).1 = .ok ∧
      Filled (MemTable.insertInto b mem heights).2.1 (writes ++ numbered seq ops) ∧
      ∀ n ∈ (MemTable.insertInto b mem heights).2.2, 0 < n := by
  unfold MemTable.insertInto
  rw [hb.iterate hsmall hn, hb.sequence hseq]
  exact ⟨rfl, Filled.handle_all (s := ⟨seq, mem, heights⟩) h hpos⟩

end Triangles.LevelDb

/-! What a database handle answers while it holds a pending batch. -/

namespace Triangles

open Batch

def CTxDB.duringBatch (committed : Store DbVal) (ops : List (Op DbVal)) : CTxDB :=
  ops.foldl Db.change (Db.start ⟨committed, none⟩)

/-- What a key is bound to once the batch is applied: what the last operation on it made of it,
or what is committed when there is none. -/
def applied (committed : Store DbVal) (ops : List (Op DbVal)) (k : DbKey) : Option (DbVal k) :=
  (lastBinding k ops).getD (committed k)

/-- The handle answers for a key as if the batch had been applied, committing it gives that
database and aborting it the old one. -/
structure SeesBatch (committed : Store DbVal) (ops : List (Op DbVal)) (k : DbKey) : Prop where
  read : (CTxDB.duringBatch committed ops).read k = applied committed ops k
  exists_ : (CTxDB.duringBatch committed ops).existsKey k = (applied committed ops k).isSome
  commit : (CTxDB.duringBatch committed ops).commit = ⟨applied committed ops, none⟩
  abort : (CTxDB.duringBatch committed ops).abort = ⟨committed, none⟩

theorem duringBatch_eq (committed : Store DbVal) (ops : List (Op DbVal)) :
    CTxDB.duringBatch committed ops = ⟨committed, some ops⟩ :=
  Db.foldl_change_start ops ⟨committed, none⟩

theorem applyAll_eq_applied (committed : Store DbVal) (ops : List (Op DbVal)) :
    applyAll committed ops = applied committed ops := by
  funext k
  rw [applied, ← scan_eq_lastBinding, scan_applyAll]

theorem duringBatch_read (committed : Store DbVal) (ops : List (Op DbVal)) (k : DbKey) :
    (CTxDB.duringBatch committed ops).read k = applied committed ops k := by
  rw [Db.read_eq_view, duringBatch_eq, ← applyAll_eq_applied]
  rfl

/-- `Exists` looks through a pending erasure. -/
theorem duringBatch_existsKey (committed : Store DbVal) (ops : List (Op DbVal)) (k : DbKey) :
    (CTxDB.duringBatch committed ops).existsKey k = true ↔
      (applied committed ops k).isSome ∨ lastBinding k ops = some none ∧ (committed k).isSome := by
  rw [duringBatch_eq]
  simp only [CTxDB.existsKey, applied, scan_eq_lastBinding]
  rcases lastBinding k ops with _ | _ | v <;> simp

/-- During a batch every answer is that of the database with the batch applied, except that
`Exists` still finds a committed record whose last pending operation is an erasure. -/
theorem sees_batch_iff (committed : Store DbVal) (ops : List (Op DbVal)) (k : DbKey) :
    SeesBatch committed ops k ↔ ¬ (lastBinding k ops = some none ∧ (committed k).isSome) := by
  constructor
  · intro h hbad
    obtain ⟨hlast, hcommitted⟩ := hbad
    have hfound := (duringBatch_existsKey committed ops k).mpr (.inr ⟨hlast, hcommitted⟩)
    rw [h.exists_, applied, hlast] at hfound
    simp at hfound
  · intro hgood
    refine ⟨duringBatch_read committed ops k, ?_, ?_, ?_⟩
    · rw [Bool.eq_iff_iff, duringBatch_existsKey]
      exact or_iff_left hgood
    · rw [duringBatch_eq, ← applyAll_eq_applied]
      rfl
    · rw [duringBatch_eq]
      rfl

/-- Erasing the record of a transaction and asking for it in the same batch. -/
theorem erased_tx_still_exists :
    (CTxDB.duringBatch (Function.update (fun _ => none) (.tx 7) (some (.fresh .null 1)))
        [.delete (.tx 7)]).containsTx 7 = true ∧
      ¬ SeesBatch (Function.update (fun _ => none) (.tx 7) (some (.fresh .null 1)))
        [.delete (.tx 7)] (.tx 7) := by
  refine ⟨by decide, fun h => ?_⟩
  exact absurd h.exists_ (by decide)

end Triangles
