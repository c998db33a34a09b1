import Triangles.Model.TxDbBytes
import Triangles.Proofs.CrashRecovery

/-! The transaction database as the rest of the program sees it is what its calls make of the bytes,
while it runs and after a crash. -/

namespace Triangles.LevelDb

open Batch

/-! Keys. -/

def InRange : DbKey → Prop
  | .tx hash => hash < 2 ^ 256
  | .blockindex hash => hash < 2 ^ 256
  | _ => True

theorem uint256Bytes_inj {a b : Nat} (ha : a < 2 ^ 256) (hb : b < 2 ^ 256)
    (h : uint256Bytes a = uint256Bytes b) : a = b := by
  have hvalue := congrArg leValue h
  rw [uint256Bytes, uint256Bytes, leValue_wordBytes, leValue_wordBytes] at hvalue
  have hmod : ∀ n, n < 2 ^ 256 → n % 256 ^ 32 = n := fun n hn => Nat.mod_eq_of_lt (by simpa using hn)
  rwa [hmod a ha, hmod b hb] at hvalue

def nameStart : DbKey → List UInt8
  | .tx _ => [2, 116]
  | .blockindex _ => [10, 98]
  | .hashBestChain => [13, 104]
  | .bnBestInvalidTrust => [18, 98]
  | .hashSyncCheckpoint => [18, 104]
  | .strCheckpointPubKey => [19, 115]
  | .version => [7, 118]

theorem keyBytes_take (k : DbKey) : (keyBytes k).take 2 = nameStart k := by
  cases k <;> rfl

theorem keyBytes_inj {k k' : DbKey} (hk : InRange k) (hk' : InRange k')
    (h : keyBytes k = keyBytes k') : k = k' := by
  have hstart : nameStart k = nameStart k' := by
    rw [← keyBytes_take, ← keyBytes_take, h]
  cases k with
  | tx hash =>
    cases k' with
    | tx hash' => exact congrArg DbKey.tx (uint256Bytes_inj hk hk' (List.append_cancel_left h))
    | _ => simp [nameStart] at hstart
  | blockindex hash =>
    cases k' with
    | blockindex hash' =>
      exact congrArg DbKey.blockindex (uint256Bytes_inj hk hk' (List.append_cancel_left h))
    | _ => simp [nameStart] at hstart
  | _ => cases k' <;> first | rfl | simp [nameStart] at hstart

theorem keyBytes_length (k : DbKey) : (keyBytes k).length + 8 < 2 ^ 32 := by
  have hbound : (keyBytes k).length ≤ 43 := by
    cases k <;> simp [keyBytes, uint256Bytes, serializeBytes, writeCompactSize, ascii]
  omega

/-! The changes of a transaction. -/

section Bytes

variable {crc : List UInt8 → UInt32} {usage : MemTable → Nat}
  {ser : (k : DbKey) → DbVal k → List UInt8}

def opBytes (ser : (k : DbKey) → DbVal k → List UInt8) : Op DbVal → BatchOp
  | .put k v => .put (keyBytes k) (ser k v)
  | .delete k => .delete (keyBytes k)

def opKey : Op DbVal → DbKey
  | .put k _ => k
  | .delete k => k

/-- What the changes leave in place of a value. -/
def bound (ser : (k : DbKey) → DbVal k → List UInt8) (k : DbKey) (found : Option (Option (DbVal k))) :
    Option (Option (List UInt8)) :=
  found.map fun v => v.map (ser k)

theorem lastChange_concat (changes : List BatchOp) (op : BatchOp) (key : List UInt8) :
    lastChange (changes ++ [op]) key =
      if op.key = key then some op.value? else lastChange changes key := by
  unfold lastChange
  by_cases h : op.key = key <;> simp [List.filter_append, h]

theorem lastChange_bytes {ops : List (Op DbVal)} (hops : ∀ op ∈ ops, InRange (opKey op))
    {k : DbKey} (hk : InRange k) :
    lastChange (ops.map (opBytes ser)) (keyBytes k) = bound ser k (scan k ops) := by
  induction ops using List.reverseRecOn with
  | nil => rfl
  | append_singleton ops op ih =>
    have hop := hops op (by simp)
    have hscan : scan k (ops ++ [op]) = (op.binds k).or (scan k ops) := by
      simp [scan, List.foldl_append]
    rw [List.map_append, List.map_singleton, lastChange_concat, hscan,
      ih fun op hop => hops op (by simp [hop])]
    cases op with
    | put k' v =>
      by_cases h : k' = k
      · subst h
        simp [opBytes, BatchOp.key, BatchOp.value?, Op.binds, bound]
      · have hne : keyBytes k' ≠ keyBytes k := fun hc => h (keyBytes_inj hop hk hc)
        simp [opBytes, BatchOp.key, Op.binds, h, hne]
    | delete k' =>
      by_cases h : k' = k
      · subst h
        simp [opBytes, BatchOp.key, BatchOp.value?, Op.binds, bound]
      · have hne : keyBytes k' ≠ keyBytes k := fun hc => h (keyBytes_inj hop hk hc)
        simp [opBytes, BatchOp.key, Op.binds, h, hne]

theorem scanner_fold (changes : List BatchOp) (key : List UInt8) :
    let s := changes.foldl CBatchScanner.handle { needle := key }
    s.needle = key ∧ match lastChange changes key with
      | none => s.foundEntry = false ∧ s.deleted = false
      | some none => s.foundEntry = true ∧ s.deleted = true
      | some (some value) => s.foundEntry = true ∧ s.deleted = false ∧ s.foundValue = value := by
  induction changes using List.reverseRecOn with
  | nil => exact ⟨rfl, rfl, rfl⟩
  | append_singleton changes op ih =>
    obtain ⟨hneedle, hfound⟩ := ih
    rw [List.foldl_append, lastChange_concat]
    cases op with
    | put k v =>
      by_cases h : k = key
      · simp [CBatchScanner.handle, BatchOp.key, BatchOp.value?, hneedle, h]
      · simpa [CBatchScanner.handle, BatchOp.key, hneedle, h] using hfound
    | delete k =>
      by_cases h : k = key
      · simp [CBatchScanner.handle, BatchOp.key, BatchOp.value?, hneedle, h]
      · simpa [CBatchScanner.handle, BatchOp.key, hneedle, h] using hfound

theorem scanBatch_holds {b : WriteBatch} {changes : List BatchOp} (h : Holds b 0 changes)
    (hsmall : ∀ op ∈ changes, op.Small) (hn : changes.length < 2 ^ 31) (key : List UInt8) :
    scanBatch b key = .ok (changes.foldl CBatchScanner.handle { needle := key }) := by
  simp [scanBatch, h.iterate hsmall hn]

/-! Calls. -/

/-- What a call asks for: a key that is one, a value that fits, and heights that can be drawn. -/
def DbCall.Fits (ser : (k : DbKey) → DbVal k → List UInt8) : DbCall → Prop
  | .write k v heights => InRange k ∧ (ser k v).length < 2 ^ 32 ∧ ∀ n ∈ heights, 0 < n
  | .erase k heights => InRange k ∧ ∀ n ∈ heights, 0 < n
  | .txnCommit heights => ∀ n ∈ heights, 0 < n
  | _ => True

/-- An operation on a key that is one, with a value that fits. -/
def OpFits (ser : (k : DbKey) → DbVal k → List UInt8) (op : Op DbVal) : Prop :=
  InRange (opKey op) ∧ (opBytes ser op).Small

/-- The handle in use holds the batch that the other one has queued. -/
def BatchMirrors (ser : (k : DbKey) → DbVal k → List UInt8) :
    Option WriteBatch → Option (List (Op DbVal)) → Prop
  | none, none => True
  | some b, some ops => Holds b 0 (ops.map (opBytes ser))
  | _, _ => False

def groupBytes (ser : (k : DbKey) → DbVal k → List UInt8) (groups : List (List (Op DbVal))) :
    List (List (List BatchOp)) :=
  groups.map fun g => [g.map (opBytes ser)]

theorem groupBytes_append (groups more : List (List (Op DbVal))) :
    groupBytes ser (groups ++ more) = groupBytes ser groups ++ groupBytes ser more :=
  List.map_append

/-- A handle of bytes and the handle of records it stands for, after some groups of operations and
at most `n` calls. -/
structure Mirrors (crc : List UInt8 → UInt32) (ser : (k : DbKey) → DbVal k → List UInt8) (n : Nat)
    (d : CTxDB) (a : Triangles.CTxDB) (groups : List (List (Op DbVal))) : Prop where
  wrote : Wrote crc (groups.map (·.map (opBytes ser)))
    (groupBytes ser groups) ⟨d.pdb, []⟩
  committed : a.committed = applyAll (fun _ => none) groups.flatten
  batch : BatchMirrors ser d.activeBatch a.batch
  fits : ∀ op ∈ groups.flatten ++ a.batch.getD [], OpFits ser op
  count : groups.flatten.length + (a.batch.getD []).length ≤ n

theorem flatten_singletons {α : Type} (groups : List α) :
    (groups.map fun g => [g]).flatten = groups := by
  induction groups with
  | nil => rfl
  | cons g groups ih => simp [ih]

theorem groups_flatten (groups : List (List (Op DbVal))) :
    (groupBytes ser groups).flatten = groups.map (·.map (opBytes ser)) := by
  rw [← flatten_singletons (groups.map (·.map (opBytes ser))), List.map_map]
  rfl

theorem groups_changes (groups : List (List (Op DbVal))) :
    (groupBytes ser groups).flatten.flatten =
      groups.flatten.map (opBytes ser) := by
  rw [groups_flatten, List.map_flatten]

theorem Filled.get_bytes {mem : MemTable} {ops : List (Op DbVal)}
    (h : Filled mem (numbered 1 (ops.map (opBytes ser)))) (hfits : ∀ op ∈ ops, OpFits ser op)
    (hlen : ops.length < 2 ^ 56 - 1) {k : DbKey} (hk : InRange k) :
    (mem.get (keyBytes k) (ops.map (opBytes ser)).length).getD none =
      (applyAll (fun _ => none) ops k).map (ser k) := by
  have hsmall : ∀ op ∈ ops.map (opBytes ser), op.Small := by
    intro change hchange
    obtain ⟨op, hop, rfl⟩ := List.mem_map.mp hchange
    exact (hfits op hop).2
  rw [h.get_lastChange hsmall (by rwa [List.length_map]) (keyBytes_length k),
    lastChange_bytes (fun op hop => (hfits op hop).1) hk, ← scan_applyAll]
  cases scan k ops <;> rfl

section Mirrors

variable {n : Nat} {d d' : CTxDB} {a : Triangles.CTxDB} {groups : List (List (Op DbVal))}

theorem Mirrors.find (h : Mirrors crc ser n d a groups) (hn : n < 2 ^ 31) {k : DbKey}
    (hk : InRange k) : d.pdb.find (keyBytes k) = (a.committed k).map (ser k) := by
  have hseq := h.wrote.last_sequence
  have hmem := h.wrote.mem
  have hcount := h.count
  rw [groups_changes] at hseq hmem
  rw [DBImpl.find, DBImpl.get, hseq, h.committed]
  exact hmem.get_bytes (fun op hop => h.fits op (List.mem_append_left _ hop)) (by omega) hk

theorem Mirrors.commit (h : Mirrors crc ser n d a groups) (hn : n + 1 < 2 ^ 31) {b : WriteBatch}
    {ops : List (Op DbVal)} (hb : Holds b 0 (ops.map (opBytes ser)))
    (hfits : ∀ op ∈ ops, OpFits ser op) (hops : ops.length ≤ n + 1) {heights : List Nat}
    (hheights : ∀ n ∈ heights, 0 < n) :
    Wrote crc ((groups ++ [ops]).map (·.map (opBytes ser)))
      (groupBytes ser (groups ++ [ops]))
      ⟨(d.pdb.writeGroup crc ⟨b, false⟩ [] heights).1, []⟩ := by
  have hcount := h.count
  obtain ⟨⟨waiting, harrived, hwaits⟩, hseq, hlog, hmem, hgroups⟩ := h.wrote
  obtain rfl : waiting = [] := by cases hwaits; rfl
  -- the writer comes to the empty queue and is served at once
  have hcame : Wrote crc ((groups ++ [ops]).map (·.map (opBytes ser)))
      (groupBytes ser groups) ⟨d.pdb, [⟨b, false⟩]⟩ := by
    refine ⟨⟨[ops.map (opBytes ser)], ?_, .cons hb .nil⟩, hseq, hlog, hmem, hgroups⟩
    rw [List.map_append, groups_flatten]
    rfl
  have hlen : ∀ g ∈ groups ++ [ops], g.length < 2 ^ 31 := by
    intro g hg
    obtain hg | hg := List.mem_append.mp hg
    · have := List.Sublist.length_le (List.sublist_flatten_of_mem hg)
      omega
    · obtain rfl := List.mem_singleton.mp hg
      omega
  obtain ⟨g, hg⟩ := hcame.write
    (by
      intro changes hchanges change hchange
      obtain ⟨g, hg, rfl⟩ := List.mem_map.mp hchanges
      obtain ⟨op, hop, rfl⟩ := List.mem_map.mp hchange
      obtain hg | hg := List.mem_append.mp hg
      · exact (h.fits op (List.mem_append_left _ (List.mem_flatten.mpr ⟨g, hg, hop⟩))).2
      · obtain rfl := List.mem_singleton.mp hg
        exact (hfits op hop).2)
    (by
      intro changes hchanges
      obtain ⟨g, hg, rfl⟩ := List.mem_map.mp hchanges
      rw [List.length_map]
      exact hlen g hg)
    (by
      rw [← List.map_flatten, List.length_map, List.flatten_append, List.length_append,
        List.flatten_singleton]
      omega)
    hheights
  have hbehind : (d.pdb.writeGroup crc ⟨b, false⟩ [] heights).2 = [] := rfl
  rw [hbehind] at hg
  obtain ⟨waiting, harrived', hwaits'⟩ := hg.queue
  obtain rfl : waiting = [] := by cases hwaits'; rfl
  obtain rfl : g = [ops.map (opBytes ser)] := by
    rw [List.append_nil, List.flatten_append, List.flatten_singleton, List.map_append,
      groups_flatten] at harrived'
    exact (List.append_cancel_left harrived').symm
  rw [groupBytes_append]
  exact hg

theorem flatten_concat (groups : List (List (Op DbVal))) (ops : List (Op DbVal)) :
    (groups ++ [ops]).flatten = groups.flatten ++ ops := by simp

theorem Mirrors.change (h : Mirrors crc ser n d a groups) (hn : n + 1 < 2 ^ 31) {op : Op DbVal}
    (hop : OpFits ser op) {heights : List Nat} (hheights : ∀ n ∈ heights, 0 < n)
    (hchange : d.change crc usage (opBytes ser op) heights = some d') :
    Mirrors crc ser (n + 1) d' (a.change op) groups ∧ d'.pdb = d.pdb ∨
      Mirrors crc ser (n + 1) d' (a.change op) (groups ++ [[op]]) := by
  have hbatch := h.batch
  have hfits := h.fits
  have hcount := h.count
  obtain ⟨committed, batch⟩ := a
  obtain ⟨pdb, activeBatch⟩ := d
  cases activeBatch with
  | none =>
    cases batch with
    | some ops => exact hbatch.elim
    | none =>
      obtain ⟨r, hwrite, rfl⟩ := Option.map_eq_some_iff.mp hchange
      obtain rfl := DBImpl.write_eq hwrite
      have hone : Holds (WriteBatch.clear.change (opBytes ser op)) 0 ([op].map (opBytes ser)) :=
        holds_clear.change _ (by simp)
      have hcommit := @Mirrors.commit _ _ _ _ _ _ h hn _ [op] hone (by simpa using hop) (by simp) _ hheights
      refine .inr ⟨hcommit, ?_, trivial, ?_, ?_⟩
      · have hcommitted := h.committed
        dsimp only at hcommitted
        simp [Db.change, hcommitted, applyAll]
      · intro op' hop'
        rw [flatten_concat, List.append_assoc] at hop'
        obtain hop' | hop' := List.mem_append.mp hop'
        · exact hfits op' (List.mem_append_left _ hop')
        · obtain rfl : op' = op := by simpa [Db.change] using hop'
          exact hop
      · rw [flatten_concat, List.length_append]
        simp [Db.change] at hcount ⊢
        omega
  | some b =>
    cases batch with
    | none => exact hbatch.elim
    | some ops =>
      rw [Option.getD_some] at hfits hcount
      obtain rfl := Option.some.inj hchange
      have hlen : ops.length + 1 < 2 ^ 31 := by omega
      have hheld : Holds (b.change (opBytes ser op)) 0 ((ops ++ [op]).map (opBytes ser)) := by
        rw [List.map_append]
        exact Holds.change hbatch _ (by rw [List.length_map]; exact hlen)
      refine .inl ⟨⟨h.wrote, h.committed, hheld, ?_, ?_⟩, rfl⟩
      · intro op' hop'
        obtain hop' | hop' := List.mem_append.mp hop'
        · exact hfits op' (List.mem_append_left _ hop')
        · obtain hop' | hop' := List.mem_append.mp hop'
          · exact hfits op' (List.mem_append_right _ hop')
          · obtain rfl := List.mem_singleton.mp hop'
            exact hop
      · dsimp only [Db.change]
        rw [Option.getD_some, List.length_append, List.length_singleton]
        omega

/-- A call, on bytes and on records: the log grows by a group or stays as it is. -/
theorem Mirrors.call (h : Mirrors crc ser n d a groups) (hn : n + 1 < 2 ^ 31) {c : DbCall}
    (hfits : c.Fits ser) (hcall : d.call crc usage ser c = some d') :
    Mirrors crc ser (n + 1) d' (c.apply a) groups ∧ d'.pdb = d.pdb ∨
      ∃ g, Mirrors crc ser (n + 1) d' (c.apply a) (groups ++ [g]) := by
  cases c with
  | txnBegin =>
    by_cases hactive : d.activeBatch.isSome
    · simp [CTxDB.call, hactive] at hcall
    · obtain rfl : { d with activeBatch := some .clear } = d' := by
        simpa [CTxDB.call, hactive] using hcall
      refine .inl ⟨⟨h.wrote, h.committed, holds_clear, fun op hop => ?_, ?_⟩, rfl⟩
      · rw [DbCall.apply, Db.batch_start, Option.getD_some, List.append_nil] at hop
        exact h.fits op (List.mem_append_left _ hop)
      · have := h.count
        rw [DbCall.apply, Db.batch_start, Option.getD_some, List.length_nil]
        omega
  | txnAbort =>
    obtain rfl := Option.some.inj hcall
    refine .inl ⟨⟨h.wrote, h.committed, trivial, fun op hop => ?_, ?_⟩, rfl⟩
    · rw [DbCall.apply, Db.batch_abort, Option.getD_none, List.append_nil] at hop
      exact h.fits op (List.mem_append_left _ hop)
    · have := h.count
      rw [DbCall.apply, Db.batch_abort, Option.getD_none, List.length_nil]
      omega
  | write k v heights =>
    obtain ⟨hk, hv, hheights⟩ := hfits
    have hop : OpFits ser (.put k v) := ⟨hk, keyBytes_length k, hv⟩
    exact (h.change hn hop hheights hcall).imp_right fun hm => ⟨_, hm⟩
  | erase k heights =>
    obtain ⟨hk, hheights⟩ := hfits
    have hop : OpFits ser (.delete k) := ⟨hk, keyBytes_length k⟩
    exact (h.change hn hop hheights hcall).imp_right fun hm => ⟨_, hm⟩
  | txnCommit heights =>
    have hbatch := h.batch
    obtain ⟨pdb, activeBatch⟩ := d
    cases activeBatch with
    | none => cases hcall
    | some b =>
      obtain ⟨r, hwrite, rfl⟩ := Option.map_eq_some_iff.mp hcall
      obtain rfl := DBImpl.write_eq hwrite
      cases hpending : a.batch with
      | none =>
        rw [hpending] at hbatch
        exact hbatch.elim
      | some ops =>
        have hfits' := h.fits
        have hcount := h.count
        rw [hpending] at hbatch hfits' hcount
        rw [Option.getD_some] at hfits' hcount
        have hcommit := h.commit hn hbatch (fun op hop => hfits' op (List.mem_append_right _ hop))
          (by omega) hfits
        refine .inr ⟨ops, hcommit, ?_, trivial, fun op hop => ?_, ?_⟩
        · rw [DbCall.apply, Db.committed_commit, Db.view, hpending, h.committed, flatten_concat]
          simp [applyAll]
        · rw [DbCall.apply, Db.batch_commit, Option.getD_none, List.append_nil,
            flatten_concat] at hop
          exact hfits' op hop
        · rw [DbCall.apply, Db.batch_commit, Option.getD_none, flatten_concat, List.length_append,
            List.length_nil]
          omega

theorem Mirrors.read (h : Mirrors crc ser n d a groups) (hn : n < 2 ^ 31) {k : DbKey}
    (hk : InRange k) :
    d.read (keyBytes k) = .ok ((a.read k).map (ser k)) ∧
      d.existsKey (keyBytes k) = .ok (Triangles.CTxDB.existsKey a k) := by
  have hfind := h.find hn hk
  have hbatch := h.batch
  have hfits := h.fits
  have hcount := h.count
  obtain ⟨committed, batch⟩ := a
  obtain ⟨pdb, activeBatch⟩ := d
  cases activeBatch with
  | none =>
    cases batch with
    | some ops => exact hbatch.elim
    | none =>
      simp [CTxDB.read, CTxDB.existsKey, Triangles.CTxDB.existsKey, Db.read, hfind]
  | some b =>
    cases batch with
    | none => exact hbatch.elim
    | some ops =>
      rw [Option.getD_some] at hfits hcount
      have hsmall : ∀ op ∈ ops.map (opBytes ser), op.Small := by
        intro change hchange
        obtain ⟨op, hop, rfl⟩ := List.mem_map.mp hchange
        exact (hfits op (List.mem_append_right _ hop)).2
      have hscan := scanBatch_holds hbatch hsmall (by rw [List.length_map]; omega) (keyBytes k)
      obtain ⟨-, hfound⟩ := scanner_fold (ops.map (opBytes ser)) (keyBytes k)
      rw [lastChange_bytes (fun op hop => (hfits op (List.mem_append_right _ hop)).1) hk] at hfound
      unfold CTxDB.read CTxDB.existsKey Triangles.CTxDB.existsKey Db.read
      dsimp only at hfind ⊢
      rw [hscan]
      cases hlast : scan k ops with
      | none =>
        rw [hlast] at hfound
        obtain ⟨hentry, hdeleted⟩ := hfound
        simp [hentry, hdeleted, hfind]
      | some found =>
        rw [hlast] at hfound
        cases found with
        | none =>
          obtain ⟨hentry, hdeleted⟩ := hfound
          simp [hentry, hdeleted, hfind]
        | some v =>
          obtain ⟨hentry, hdeleted, hvalue⟩ := hfound
          simp [hentry, hdeleted, hvalue]

theorem Mirrors.calls {calls : List DbCall} (h : Mirrors crc ser n d a groups)
    (hfits : ∀ c ∈ calls, c.Fits ser) (hn : n + calls.length < 2 ^ 31)
    (hcalls : calls.foldlM (CTxDB.call crc usage ser) d = some d') :
    ∃ more, Mirrors crc ser (n + calls.length) d' (calls.foldl DbCall.apply a) (groups ++ more) := by
  induction calls generalizing n d a groups with
  | nil =>
    obtain rfl := Option.some.inj hcalls
    exact ⟨[], by rwa [List.append_nil]⟩
  | cons c calls ih =>
    rw [List.foldlM_cons] at hcalls
    obtain ⟨d₁, hc, hrest⟩ := Option.bind_eq_some_iff.mp hcalls
    rw [List.length_cons] at hn
    obtain ⟨more, hmore⟩ : ∃ more, Mirrors crc ser (n + 1) d₁ (c.apply a) (groups ++ more) := by
      obtain ⟨hstay, -⟩ | ⟨g, hg⟩ := h.call (by omega) (hfits c (by simp)) hc
      · exact ⟨[], by rwa [List.append_nil]⟩
      · exact ⟨[g], hg⟩
    obtain ⟨rest, hrest⟩ := ih hmore (fun c hc => hfits c (by simp [hc])) (by omega) hrest
    refine ⟨more ++ rest, ?_⟩
    rwa [List.append_assoc, Nat.add_right_comm, Nat.add_assoc n] at hrest

end Mirrors

theorem mirrors_new : Mirrors crc ser 0 ⟨DBImpl.new, none⟩ ⟨fun _ => none, none⟩ [] :=
  ⟨⟨⟨[], rfl, .nil⟩, rfl, rfl, filled_empty, by simp [groupBytes]⟩, rfl, trivial, by simp, Nat.le_refl 0⟩

def recordsAfter (calls : List DbCall) : Triangles.CTxDB :=
  calls.foldl DbCall.apply ⟨fun _ => none, none⟩

theorem run_mirrors {calls : List DbCall} {d : CTxDB} (hfits : ∀ c ∈ calls, c.Fits ser)
    (hn : calls.length < 2 ^ 31) (hrun : CTxDB.run crc usage ser calls = some d) :
    ∃ groups, Mirrors crc ser calls.length d (recordsAfter calls) groups := by
  obtain ⟨more, hmore⟩ := mirrors_new.calls hfits (by omega) hrun
  rw [Nat.zero_add] at hmore
  exact ⟨more, hmore⟩

/-- Through any calls, within a transaction or not, the bytes that are read under a record's key are
those of the record. -/
theorem txdb_reads_records {calls : List DbCall} {d : CTxDB} (hfits : ∀ c ∈ calls, c.Fits ser)
    (hn : calls.length < 2 ^ 31) (hrun : CTxDB.run crc usage ser calls = some d) {k : DbKey}
    (hk : InRange k) :
    d.read (keyBytes k) = .ok (((recordsAfter calls).read k).map (ser k)) ∧
      d.existsKey (keyBytes k) = .ok (Triangles.CTxDB.existsKey (recordsAfter calls) k) := by
  obtain ⟨groups, h⟩ := run_mirrors hfits hn hrun
  exact h.read hn hk

/-- Reading within a transaction what was written before it and erased in it. -/
theorem txdb_reads_records_erased :
    ∃ d, CTxDB.run (fun _ => 0) (fun mem => mem.keys.length) (fun _ _ => [7])
        [.write .version (1 : Int) [1], .txnBegin, .erase .version [1]] = some d ∧
      d.read (keyBytes .version) = .ok none := by
  obtain ⟨d, hrun⟩ : ∃ d, CTxDB.run (fun _ => 0) (fun mem => mem.keys.length) (fun _ _ => [7])
      [.write .version (1 : Int) [1], .txnBegin, .erase .version [1]] = some d := ⟨_, rfl⟩
  exact ⟨d, hrun, (txdb_reads_records (by simp [DbCall.Fits, InRange]) (by simp) hrun
    (k := .version) trivial).1⟩

/-! The restart. -/

def logAfter (crc : List UInt8 → UInt32) (usage : MemTable → Nat)
    (ser : (k : DbKey) → DbVal k → List UInt8)
    (calls : List DbCall) : List UInt8 :=
  ((CTxDB.run crc usage ser calls).map fun d => d.pdb.log_.dest_).getD []

/-- A log that is cut behind some groups, and before the end of the next, gives those groups. -/
theorem Wrote.recover {arrived : List (List BatchOp)} {before after : List (List (List BatchOp))}
    {q : WriteQueue} (h : Wrote crc arrived (before ++ after) q) {k : Nat}
    (hsmall : ∀ op ∈ before.flatten.flatten, op.Small)
    (htotal : before.flatten.flatten.length < 2 ^ 56 - 1)
    (hle : (logOf crc 0 (recordsOf 0 before)).dest_.length ≤ k)
    (hlt : ∀ g rest, after = g :: rest →
      k < (logOf crc 0 (recordsOf 0 (before ++ [g]))).dest_.length)
    {heights : List Nat} (hheights : ∀ n ∈ heights, 0 < n) :
    Refilled (recoverLogFile crc (q.db.log_.dest_.take k) heights) before.flatten.flatten := by
  have hstart := standing_start ((logOf crc kBlockSize (recordsOf 0 (before ++ after))).dest_.take k)
  obtain ⟨m, hm, hwhole, hnext, hrecovered⟩ :=
    hstart.recover (recordsOf 0 (before ++ after)) ⟨SkipList.empty, 0, heights⟩ (Nat.lt_succ_self _)
  rw [recordsOf_length] at hm hnext
  rw [logOf_start, ← h.log, recordsOf_take] at hrecovered
  rw [logOf_start, recordsOf_take] at hwhole
  have hmono : ∀ {i j : Nat}, i ≤ j →
      (logOf crc 0 (recordsOf 0 ((before ++ after).take i))).dest_.length ≤
        (logOf crc 0 (recordsOf 0 ((before ++ after).take j))).dest_.length := by
    intro i j hij
    rw [← recordsOf_take, ← recordsOf_take]
    exact logOf_length_le crc 0 (List.take_prefix_take_left hij)
  have hbefore : (before ++ after).take before.length = before := List.take_left
  obtain rfl : m = before.length := by
    apply Nat.le_antisymm
    · by_contra hlong
      obtain ⟨g, rest, rfl⟩ : ∃ g rest, after = g :: rest := by
        cases after with
        | nil => rw [List.append_nil] at hm; omega
        | cons g rest => exact ⟨g, rest, rfl⟩
      have hcut := hlt g rest rfl
      have hthis := hmono (i := before.length + 1) (j := m) (by omega)
      have htake : (before ++ g :: rest).take (before.length + 1) = before ++ [g] := by
        rw [List.take_length_add_append]
        rfl
      rw [htake] at hthis
      omega
    · by_contra hshort
      have hcut := hnext (by rw [List.length_append]; omega)
      rw [logOf_start, recordsOf_take] at hcut
      have hthis := hmono (i := m + 1) (j := before.length) (by omega)
      rw [hbefore] at hthis
      omega
  have hempty : Refilled ⟨SkipList.empty, 0, heights⟩ [] := ⟨filled_empty, rfl, hheights⟩
  have hrefilled := @Refilled.replay_all before _ _ hempty hsmall
    (fun g hg => h.count g (List.mem_append_left _ hg)) (by rw [List.length_nil]; omega)
  rw [hbefore] at hrecovered
  rw [List.nil_append, List.length_nil, ← hrecovered] at hrefilled
  exact hrefilled

theorem exists_longest_prefix {α : Type} (P : List α → Prop) (hnil : P []) (l : List α) :
    ∃ upto, upto <+: l ∧ P upto ∧ ∀ c, upto ++ [c] <+: l → ¬ P (upto ++ [c]) := by
  induction l using List.reverseRecOn with
  | nil => exact ⟨[], List.nil_prefix, hnil, fun c hc => absurd hc.length_le (by simp)⟩
  | append_singleton l a ih =>
    by_cases hP : P (l ++ [a])
    · refine ⟨l ++ [a], List.prefix_rfl, hP, fun c hc => ?_⟩
      have hlen := hc.length_le
      simp at hlen
    · obtain ⟨upto, hpre, hupto, hnext⟩ := ih
      refine ⟨upto, hpre.trans (List.prefix_append _ _), hupto, fun c hc => ?_⟩
      obtain heq | hc := List.prefix_concat_iff.mp hc
      · rwa [heq]
      · exact hnext c hc

theorem logAfter_eq {calls : List DbCall} {d : CTxDB} {n : Nat} {a : Triangles.CTxDB}
    {groups : List (List (Op DbVal))} (hrun : CTxDB.run crc usage ser calls = some d)
    (h : Mirrors crc ser n d a groups) :
    logAfter crc usage ser calls =
      (logOf crc 0 (recordsOf 0 (groupBytes ser groups))).dest_ := by
  rw [logAfter, hrun, ← h.wrote.log]
  rfl

/-- The groups that the later calls write, the first of which is not whole in what is left of the log. -/
theorem Mirrors.cut {upto after : List DbCall} {d₀ d : CTxDB} {a : Triangles.CTxDB}
    {groups : List (List (Op DbVal))} {k : Nat} (h₀ : Mirrors crc ser upto.length d₀ a groups)
    (hfits : ∀ c ∈ after, c.Fits ser)
    (hn : upto.length + after.length < 2 ^ 31) (hrun₀ : CTxDB.run crc usage ser upto = some d₀)
    (hafter : after.foldlM (CTxDB.call crc usage ser) d₀ = some d)
    (hle : (logAfter crc usage ser upto).length ≤ k)
    (hnext : ∀ c, upto ++ [c] <+: upto ++ after → k < (logAfter crc usage ser (upto ++ [c])).length) :
    ∃ more, (∃ n a, Mirrors crc ser n d a (groups ++ more)) ∧
      ∀ g rest, groupBytes ser more = g :: rest →
        k < (logOf crc 0 (recordsOf 0 (groupBytes ser groups ++ [g]))).dest_.length := by
  cases after with
  | nil =>
    obtain rfl := Option.some.inj hafter
    refine ⟨[], ⟨_, _, by rw [List.append_nil]; exact h₀⟩, fun g rest hg => ?_⟩
    cases hg
  | cons c after =>
    rw [List.length_cons] at hn
    rw [List.foldlM_cons] at hafter
    obtain ⟨d₁, hc, hrest⟩ := Option.bind_eq_some_iff.mp hafter
    have hlong := hnext c (by simp)
    have hrun₁ : CTxDB.run crc usage ser (upto ++ [c]) = some d₁ := by
      rw [CTxDB.run, List.foldlM_append]
      exact Option.bind_eq_some_iff.mpr ⟨d₀, hrun₀, by simpa using hc⟩
    obtain ⟨h₁, -⟩ | ⟨g, h₁⟩ := h₀.call (by omega) (hfits c (by simp)) hc
    · -- the log would have stayed as it was
      rw [logAfter_eq hrun₁ h₁, ← logAfter_eq hrun₀ h₀] at hlong
      exact absurd hle (not_le.mpr hlong)
    · obtain ⟨rest, h₂⟩ := h₁.calls (fun c hc => hfits c (by simp [hc])) (by omega) hrest
      refine ⟨g :: rest, ⟨_, _, by rwa [List.append_assoc] at h₂⟩, fun g' rest' hg' => ?_⟩
      obtain ⟨rfl, -⟩ := List.cons.inj hg'
      rw [logAfter_eq hrun₁ h₁, groupBytes_append] at hlong
      exact hlong

/-- A crash cuts the log at some byte. What the next start finds are the records as they were
committed after the last call whose log is whole: a transaction is there as a whole or not at all. -/
theorem txdb_restart (calls : List DbCall) (hfits : ∀ c ∈ calls, c.Fits ser)
    (hn : calls.length < 2 ^ 31) (hrun : (CTxDB.run crc usage ser calls).isSome) (k : Nat)
    (heights : List Nat) (hheights : ∀ n ∈ heights, 0 < n) :
    ∃ upto, upto <+: calls ∧ (logAfter crc usage ser upto).length ≤ k ∧
      (∀ c, upto ++ [c] <+: calls → k < (logAfter crc usage ser (upto ++ [c])).length) ∧
      ∀ key, InRange key →
        let recovered := recoverLogFile crc ((logAfter crc usage ser calls).take k) heights
        (recovered.mem.get (keyBytes key) recovered.max_sequence).getD none =
          ((recordsAfter upto).committed key).map (ser key) := by
  obtain ⟨upto, ⟨after, rfl⟩, hle, hnext⟩ := exists_longest_prefix
    (fun upto => (logAfter crc usage ser upto).length ≤ k) (Nat.zero_le k) calls
  have hnext' : ∀ c, upto ++ [c] <+: upto ++ after →
      k < (logAfter crc usage ser (upto ++ [c])).length := fun c hc => not_le.mp (hnext c hc)
  refine ⟨upto, List.prefix_append _ _, hle, hnext', fun key hkey => ?_⟩
  obtain ⟨d, hrun⟩ := Option.isSome_iff_exists.mp hrun
  rw [List.length_append] at hn
  obtain ⟨d₀, hrun₀, hafter⟩ : ∃ d₀, CTxDB.run crc usage ser upto = some d₀ ∧
      after.foldlM (CTxDB.call crc usage ser) d₀ = some d := by
    rw [CTxDB.run, List.foldlM_append] at hrun
    exact Option.bind_eq_some_iff.mp hrun
  obtain ⟨groups, h₀⟩ := run_mirrors (fun c hc => hfits c (List.mem_append_left _ hc)) (by omega)
    hrun₀
  have hcount := h₀.count
  have hops : ∀ op ∈ groups.flatten, OpFits ser op :=
    fun op hop => h₀.fits op (List.mem_append_left _ hop)
  obtain ⟨more, ⟨n, a, hall⟩, hcut⟩ :=
    h₀.cut (fun c hc => hfits c (List.mem_append_right _ hc)) hn hrun₀ hafter hle hnext'
  have hwrote := hall.wrote
  rw [groupBytes_append] at hwrote
  have hlog : logAfter crc usage ser (upto ++ after) = d.pdb.log_.dest_ := by
    rw [logAfter, hrun]
    rfl
  rw [logAfter_eq hrun₀ h₀] at hle
  have hrefilled := hwrote.recover (k := k)
    (by
      rw [groups_changes]
      intro change hchange
      obtain ⟨op, hop, rfl⟩ := List.mem_map.mp hchange
      exact (hops op hop).2)
    (by
      rw [groups_changes, List.length_map]
      omega)
    hle hcut hheights
  rw [groups_changes] at hrefilled
  dsimp only
  rw [hlog, hrefilled.max_sequence, h₀.committed]
  exact hrefilled.mem.get_bytes hops (by omega) hkey

theorem txdb_restart_two :
    let calls : List DbCall := [.txnBegin, .write .version (1 : Int) [], .txnCommit [1, 2]]
    let log := logAfter (fun _ => 0) (fun mem => mem.keys.length) fun _ _ => [7]
    ∃ upto, upto <+: calls ∧ (log upto).length ≤ 30 ∧
      (∀ c, upto ++ [c] <+: calls → 30 < (log (upto ++ [c])).length) ∧
      ∀ key, InRange key →
        let recovered := recoverLogFile (fun _ => 0) ((log calls).take 30) [3]
        (recovered.mem.get (keyBytes key) recovered.max_sequence).getD none =
          ((recordsAfter upto).committed key).map fun _ => [7] :=
  @txdb_restart (fun _ => 0) (fun mem => mem.keys.length) (fun _ _ => [7])
    [.txnBegin, .write .version (1 : Int) [], .txnCommit [1, 2]] (by simp [DbCall.Fits, InRange])
    (by simp) rfl 30 [3] (by simp)

end Bytes

end Triangles.LevelDb
