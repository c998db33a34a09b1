import Triangles.Model.Serialize
import Triangles.Proofs.Undo

/-! Reading gives back what was written, sizes are the numbers of bytes written, and the
positions of `ConnectBlock` are where the transactions lie. -/

namespace Triangles

open Codec Outcome

/-! Integers. -/

theorem leValue_wordBytes (width n : Nat) : leValue (wordBytes width n) = n % 256 ^ width := by
  induction width generalizing n with
  | zero => rw [Nat.pow_zero, Nat.mod_one]; rfl
  | succ width ih =>
    rw [wordBytes, leValue, ih, Nat.pow_succ', Nat.mod_mul]
    rfl

theorem readLE_reads {width n : Nat} (h : n < 256 ^ width) :
    Reads (readLE width) (wordBytes width n) n := by
  have hr := (readBytes_reads StreamError.endOfData (wordBytes width n)).map leValue
  rw [wordBytes_length, leValue_wordBytes, Nat.mod_eq_of_lt h] at hr
  exact hr

theorem readUInt32_reads (n : UInt32) : Reads readUInt32 (wordBytes 4 n.toNat) n := by
  have hlt : n.toNat < 256 ^ 4 := n.toNat_lt
  have hr := (readLE_reads hlt).map UInt32.ofNat
  rw [UInt32.ofNat_toNat] at hr
  exact hr

theorem readBytes_of_le {n : Nat} {s : List UInt8} (h : n ≤ s.length) :
    readBytes StreamError.endOfData n s = .ok (s.take n, s.drop n) := by
  simp [readBytes, h]

theorem readUInt32_of_le {s : List UInt8} (h : 4 ≤ s.length) :
    readUInt32 s = .ok (UInt32.ofNat (leValue (s.take 4)), s.drop 4) := by
  change ((readBytes StreamError.endOfData 4 s >>= fun x => Except.ok (leValue x.1, x.2)) >>= fun x =>
    Except.ok (UInt32.ofNat x.1, x.2)) = _
  rw [readBytes_of_le h]
  rfl

theorem readUInt32_ok {s rest : List UInt8} {n : UInt32} (h : readUInt32 s = .ok (n, rest)) :
    4 ≤ s.length ∧ rest = s.drop 4 := by
  by_cases hlen : 4 ≤ s.length
  · rw [readUInt32_of_le hlen] at h
    exact ⟨hlen, (Prod.mk.inj (Except.ok.inj h)).2.symm⟩
  · change ((readBytes StreamError.endOfData 4 s >>= fun x => Except.ok (leValue x.1, x.2)) >>= fun x =>
      Except.ok (UInt32.ofNat x.1, x.2)) = _ at h
    rw [readBytes, if_neg hlen] at h
    cases h

/-- The values of a signed machine integer of `width` bytes. -/
def InSigned (width : Nat) (n : Int) : Prop :=
  -(256 ^ width : Nat) ≤ n * 2 ∧ n * 2 < (256 ^ width : Nat)

theorem readSigned_reads {width : Nat} {n : Int} (h : InSigned width n) :
    Reads (readSigned width) (signedBytes width n) n := by
  have hpos : 0 < 256 ^ width := Nat.pow_pos (by decide)
  have hcast : ((256 : Int) ^ width) = ((256 ^ width : Nat) : Int) := by push_cast; rfl
  have hnonneg : 0 ≤ n % ((256 ^ width : Nat) : Int) := Int.emod_nonneg n (by omega)
  have hlt : (n % ((256 ^ width : Nat) : Int)).toNat < 256 ^ width := by
    have := Int.emod_lt_of_pos n (b := ((256 ^ width : Nat) : Int)) (by omega)
    omega
  have hr := (readLE_reads hlt).map fun k : Nat => (k : Int).bmod (256 ^ width)
  rw [Int.toNat_of_nonneg hnonneg, Int.emod_bmod, Int.bmod_eq_of_le_mul_two h.1 h.2] at hr
  unfold signedBytes
  rw [hcast]
  exact hr

/-! Compact sizes and vectors. -/

@[simp] theorem writeCompactSize_length (n : Nat) :
    (writeCompactSize n).length = getSizeOfCompactSize n := by
  unfold writeCompactSize getSizeOfCompactSize
  split_ifs <;> simp

theorem sizeAfter_reads (chSize : Nat) {n : Nat} {bytes : List UInt8} (h : n ≤ MAX_SIZE)
    (hch : chSize < 256 ^ 1) (hr : Reads (readSizeAfter chSize) bytes n) :
    Reads readCompactSize (wordBytes 1 chSize ++ bytes) n := by
  refine (readLE_reads hch).bind ?_
  rw [← List.append_nil bytes]
  refine hr.bind ?_
  rw [if_neg (Nat.not_lt.mpr h)]
  exact reads_pure n

theorem readCompactSize_reads {n : Nat} (h : n ≤ MAX_SIZE) :
    Reads readCompactSize (writeCompactSize n) n := by
  have hmax : n ≤ 33554432 := h
  unfold writeCompactSize
  split_ifs with hone htwo hfour
  · rw [← List.append_nil (wordBytes 1 n)]
    refine sizeAfter_reads n h (by omega) ?_
    rw [readSizeAfter, if_pos hone]
    exact reads_pure n
  · exact sizeAfter_reads 253 h (by decide) (readLE_reads (by omega))
  · exact sizeAfter_reads 254 h (by decide) (readLE_reads (by omega))
  · omega

theorem serializeVector_reads {sizeofT : Nat} {r : Reader StreamError α} {w : α → List UInt8}
    {v : List α} (hsize : 0 < 5000000 / sizeofT) (hv : v.length ≤ MAX_SIZE)
    (h : ∀ a ∈ v, Reads r (w a) a) :
    Reads (unserializeVector sizeofT r) (serializeVector w v) v := by
  refine (readCompactSize_reads hv).bind ?_
  have hread := readBlocks_reads (readMany r) w hsize v.length [] v le_rfl
    fun b hb => readMany_reads b fun a ha => h a (hb a ha)
  rw [List.length_nil, Nat.zero_add, List.nil_append] at hread
  exact hread

theorem serializeBytes_reads {v : List UInt8} (hv : v.length ≤ MAX_SIZE) :
    Reads unserializeBytes (serializeBytes v) v := by
  refine (readCompactSize_reads hv).bind ?_
  have hread := readBlocks_reads (readBytes StreamError.endOfData) (fun b => [b])
    (show 0 < 1 + 4999999 / 1 by decide) v.length [] v le_rfl
    fun b _ => by rw [List.flatMap_singleton']; exact readBytes_reads _ b
  rw [List.length_nil, Nat.zero_add, List.nil_append, List.flatMap_singleton'] at hread
  exact hread

/-! The classes. A value fits when its integers are those of the machine types and its
vectors and scripts have at most `MAX_SIZE` elements. -/

structure CTxIn.Fits (txin : CTxIn) : Prop where
  hash : txin.prevout.hash < 256 ^ 32
  scriptSig : txin.scriptSig.length ≤ MAX_SIZE

structure CTxOut.Fits (txout : CTxOut) : Prop where
  nValue : InSigned 8 txout.nValue
  scriptPubKey : txout.scriptPubKey.length ≤ MAX_SIZE

structure CTransaction.Fits (tx : CTransaction) : Prop where
  nVersion : InSigned 4 tx.nVersion
  vin_length : tx.vin.length ≤ MAX_SIZE
  vin : ∀ txin ∈ tx.vin, txin.Fits
  vout_length : tx.vout.length ≤ MAX_SIZE
  vout : ∀ txout ∈ tx.vout, txout.Fits

structure CBlock.Fits (block : CBlock) : Prop where
  nVersion : InSigned 4 block.nVersion
  hashPrevBlock : block.hashPrevBlock < 256 ^ 32
  hashMerkleRoot : block.hashMerkleRoot < 256 ^ 32
  vtx_length : block.vtx.length ≤ MAX_SIZE
  vtx : ∀ tx ∈ block.vtx, tx.Fits
  vchBlockSig : block.vchBlockSig.length ≤ MAX_SIZE

instance (width : Nat) (n : Int) : Decidable (InSigned width n) :=
  inferInstanceAs (Decidable (_ ∧ _))

instance (txin : CTxIn) : Decidable txin.Fits :=
  decidable_of_iff (txin.prevout.hash < 256 ^ 32 ∧ txin.scriptSig.length ≤ MAX_SIZE)
    ⟨fun h => ⟨h.1, h.2⟩, fun h => ⟨h.hash, h.scriptSig⟩⟩

instance (txout : CTxOut) : Decidable txout.Fits :=
  decidable_of_iff (InSigned 8 txout.nValue ∧ txout.scriptPubKey.length ≤ MAX_SIZE)
    ⟨fun h => ⟨h.1, h.2⟩, fun h => ⟨h.nValue, h.scriptPubKey⟩⟩

instance (tx : CTransaction) : Decidable tx.Fits :=
  decidable_of_iff (InSigned 4 tx.nVersion ∧ tx.vin.length ≤ MAX_SIZE ∧
      (∀ txin ∈ tx.vin, txin.Fits) ∧ tx.vout.length ≤ MAX_SIZE ∧ ∀ txout ∈ tx.vout, txout.Fits)
    ⟨fun ⟨hn, hil, hi, hol, ho⟩ => ⟨hn, hil, hi, hol, ho⟩,
      fun h => ⟨h.nVersion, h.vin_length, h.vin, h.vout_length, h.vout⟩⟩

instance (block : CBlock) : Decidable block.Fits :=
  decidable_of_iff (InSigned 4 block.nVersion ∧ block.hashPrevBlock < 256 ^ 32 ∧
      block.hashMerkleRoot < 256 ^ 32 ∧ block.vtx.length ≤ MAX_SIZE ∧
      (∀ tx ∈ block.vtx, tx.Fits) ∧ block.vchBlockSig.length ≤ MAX_SIZE)
    ⟨fun ⟨hn, hp, hm, hl, hv, hs⟩ => ⟨hn, hp, hm, hl, hv, hs⟩,
      fun h => ⟨h.nVersion, h.hashPrevBlock, h.hashMerkleRoot, h.vtx_length, h.vtx,
        h.vchBlockSig⟩⟩

theorem CTxIn.Fits.reads {txin : CTxIn} (h : txin.Fits) :
    Reads CTxIn.unserialize txin.serialize txin := by
  refine Reads.bind (a := txin.prevout) ?_ ?_
  · exact (readLE_reads h.hash).bind ((readUInt32_reads _).map _)
  · exact (serializeBytes_reads h.scriptSig).bind ((readUInt32_reads _).map _)

theorem CTxOut.Fits.reads {txout : CTxOut} (h : txout.Fits) :
    Reads CTxOut.unserialize txout.serialize txout :=
  (readSigned_reads h.nValue).bind ((serializeBytes_reads h.scriptPubKey).map _)

theorem CTransaction.Fits.reads {tx : CTransaction} (h : tx.Fits) :
    Reads CTransaction.unserialize tx.serialize tx := by
  refine (readSigned_reads h.nVersion).bind ?_
  refine (readUInt32_reads tx.nTime).bind ?_
  refine (serializeVector_reads (by decide) h.vin_length fun a ha => (h.vin a ha).reads).bind ?_
  refine (serializeVector_reads (by decide) h.vout_length fun a ha => (h.vout a ha).reads).bind ?_
  exact (readUInt32_reads tx.nLockTime).map _

theorem CBlock.Fits.header_reads {block : CBlock} (h : block.Fits) :
    Reads CBlockHeader.unserialize block.toCBlockHeader.serialize block.toCBlockHeader := by
  refine (readSigned_reads h.nVersion).bind ?_
  refine (readLE_reads h.hashPrevBlock).bind ?_
  refine (readLE_reads h.hashMerkleRoot).bind ?_
  refine (readUInt32_reads block.nTime).bind ?_
  refine (readUInt32_reads block.nBits).bind ?_
  exact (readUInt32_reads block.nNonce).map _

theorem headerOnly_false {nType : Nat} (h : nType = SER_NETWORK ∨ nType = SER_DISK) :
    CBlock.headerOnly nType = false := by
  rcases h with rfl | rfl <;> rfl

theorem CBlock.Fits.reads {block : CBlock} (h : block.Fits) {nType : Nat}
    (hType : nType = SER_NETWORK ∨ nType = SER_DISK) :
    Reads (CBlock.unserialize nType) (block.serialize nType) block := by
  unfold CBlock.unserialize CBlock.serialize
  refine h.header_reads.bind ?_
  rw [headerOnly_false hType]
  refine (serializeVector_reads (by decide) h.vtx_length fun a ha => (h.vtx a ha).reads).bind ?_
  exact (serializeBytes_reads h.vchBlockSig).map _

/-! Sizes. -/

theorem serializeBytes_length (v : List UInt8) :
    (serializeBytes v).length = getSizeOfCompactSize v.length + v.length := by
  rw [serializeBytes, List.length_append, writeCompactSize_length]

theorem serializeVector_length (w : α → List UInt8) (v : List α) :
    (serializeVector w v).length =
      getSizeOfCompactSize v.length + (v.map fun a => (w a).length).sum := by
  rw [serializeVector, List.length_append, writeCompactSize_length, List.length_flatMap]

theorem CTxIn.serialize_length (txin : CTxIn) : txin.serialize.length =
    36 + getSizeOfCompactSize txin.scriptSig.length + txin.scriptSig.length + 4 := by
  simp only [CTxIn.serialize, uint256Bytes, List.length_append, wordBytes_length,
    serializeBytes_length]
  omega

theorem CTxOut.serialize_length (txout : CTxOut) : txout.serialize.length =
    8 + getSizeOfCompactSize txout.scriptPubKey.length + txout.scriptPubKey.length := by
  simp only [CTxOut.serialize, signedBytes, List.length_append, wordBytes_length,
    serializeBytes_length]
  omega

theorem CTransaction.serialize_length (tx : CTransaction) :
    tx.serialize.length = tx.getSerializeSize := by
  simp only [CTransaction.serialize, signedBytes, List.length_append, wordBytes_length,
    serializeVector_length, CTxIn.serialize_length, CTxOut.serialize_length, getSerializeSize]
  omega

theorem CBlockHeader.serialize_length (header : CBlockHeader) : header.serialize.length = 80 := by
  simp only [CBlockHeader.serialize, signedBytes, uint256Bytes, List.length_append,
    wordBytes_length]

theorem CBlock.serialize_length (block : CBlock) {nType : Nat}
    (hType : nType = SER_NETWORK ∨ nType = SER_DISK) :
    (block.serialize nType).length = block.getSerializeSize := by
  have hvtx : (block.vtx.map fun tx => tx.serialize.length) =
      block.vtx.map CTransaction.getSerializeSize :=
    List.map_congr_left fun tx _ => tx.serialize_length
  simp only [CBlock.serialize, headerOnly_false hType, Bool.false_eq_true, if_false,
    List.length_append, CBlockHeader.serialize_length, serializeVector_length, hvtx,
    serializeBytes_length, getSerializeSize]
  omega

/-- The sum of sizes in 32 bits is the sum of the sizes, reduced. -/
theorem vectorSize_eq {size : α → UInt32} {n : α → Nat} (v : List α)
    (h : ∀ a ∈ v, size a = UInt32.ofNat (n a)) :
    vectorSize size v = UInt32.ofNat (getSizeOfCompactSize v.length + (v.map n).sum) := by
  unfold vectorSize
  generalize getSizeOfCompactSize v.length = k
  induction v generalizing k with
  | nil => rfl
  | cons a v ih =>
    rw [List.foldl_cons, h a List.mem_cons_self, ← UInt32.ofNat_add,
      ih (fun b hb => h b (List.mem_cons_of_mem a hb)), List.map_cons, List.sum_cons, Nat.add_assoc]

theorem CTxIn.serSize_eq (txin : CTxIn) : txin.serSize = UInt32.ofNat txin.serialize.length := by
  rw [CTxIn.serialize_length, CTxIn.serSize, bytesSize]
  simp only [UInt32.ofNat_add, UInt32.add_assoc]
  rfl

theorem CTxOut.serSize_eq (txout : CTxOut) :
    txout.serSize = UInt32.ofNat txout.serialize.length := by
  rw [CTxOut.serialize_length, CTxOut.serSize, bytesSize]
  simp only [UInt32.ofNat_add, UInt32.add_assoc]
  rfl

theorem CTransaction.serSize_eq (tx : CTransaction) :
    tx.serSize = UInt32.ofNat tx.serialize.length := by
  rw [CTransaction.serSize, vectorSize_eq tx.vin fun a _ => a.serSize_eq,
    vectorSize_eq tx.vout fun a _ => a.serSize_eq]
  simp only [CTransaction.serialize, signedBytes, List.length_append, wordBytes_length,
    serializeVector_length, UInt32.ofNat_add, UInt32.add_assoc]
  rfl

theorem CBlock.serSize_eq (block : CBlock) (nType : Nat) :
    block.serSize nType = UInt32.ofNat (block.serialize nType).length := by
  unfold CBlock.serSize CBlock.serialize
  split
  · rw [List.length_append, CBlockHeader.serialize_length]
    rfl
  · rw [vectorSize_eq block.vtx fun a _ => a.serSize_eq]
    simp only [bytesSize, List.length_append, CBlockHeader.serialize_length,
      serializeVector_length, serializeBytes_length, UInt32.ofNat_add, UInt32.add_assoc]
    rfl

/-! Positions. -/

/-- The bytes of the block lie in its file where its index entry says, below the end of the
positions that 32 bits can hold. -/
structure LiesAt (openBlockFile : UInt32 → Option (List UInt8)) (block : CBlock)
    (pindex : CBlockIndex) : Prop where
  bytes : ∃ before after,
    openBlockFile pindex.fields.nFile = some (before ++ block.serialize SER_DISK ++ after) ∧
      before.length = pindex.fields.nBlockPos.toNat
  below : pindex.fields.nBlockPos.toNat + (block.serialize SER_DISK).length ≤ 2 ^ 32

theorem connectTx_nTxPos {env : Env} {ctx : Ctx} {txdb : CTxDB} {pindex : CBlockIndex}
    {fJustCheck : Bool} {acc acc' : ConnectAcc} {tx : CTransaction}
    (h : connectTx env ctx txdb pindex fJustCheck acc tx = .ok acc') :
    acc'.nTxPos = nextTxPos fJustCheck acc.nTxPos tx := by
  simp only [connectTx, check_bind] at h
  obtain ⟨_, _, h⟩ := h
  split at h
  · simp only [bind_ok, pure_ok] at h
    obtain ⟨_, _, rfl⟩ := h
    rfl
  · simp only [bind_ok, check_ok, pure_ok] at h
    obtain ⟨_, _, _, _, _, _, _, _, _, _, _, _, rfl⟩ := h
    rfl

/-- The position after some transactions, counted without reduction. -/
theorem nTxPos_toNat (pos : UInt32) (vtx : List CTransaction)
    (h : pos.toNat + (vtx.flatMap CTransaction.serialize).length < 2 ^ 32) :
    (vtx.foldl (nextTxPos false) pos).toNat =
      pos.toNat + (vtx.flatMap CTransaction.serialize).length := by
  induction vtx generalizing pos with
  | nil => rfl
  | cons tx vtx ih =>
    rw [List.flatMap_cons, List.length_append, CTransaction.serialize_length] at h ⊢
    have hnext : (nextTxPos false pos tx).toNat = pos.toNat + tx.getSerializeSize := by
      simp only [nextTxPos, Bool.false_eq_true, if_false, UInt32.toNat_add, UInt32.toNat_ofNat']
      omega
    rw [List.foldl_cons, ih _ (by omega), hnext]
    omega

theorem firstTxPos_toNat {block : CBlock} {pindex : CBlockIndex}
    (h : pindex.fields.nBlockPos.toNat + 80 + getSizeOfCompactSize block.vtx.length < 2 ^ 32) :
    (firstTxPos block pindex false).toNat =
      pindex.fields.nBlockPos.toNat + 80 + getSizeOfCompactSize block.vtx.length := by
  have hheader : ∀ n : Nat, CBlock.getSerializeSize
      { hashPrevBlock := 0, hashMerkleRoot := 0, nTime := 0, nBits := 0, vtx := [] } -
        2 * getSizeOfCompactSize 0 + n = 80 + n := fun _ => rfl
  simp only [firstTxPos, Bool.false_eq_true, if_false, hheader, UInt32.toNat_add,
    UInt32.toNat_ofNat']
  omega

/-- The loop of `ConnectBlock` meets every transaction at the place where it lies. -/
theorem position_reads {env : Env} {ctx : Ctx} {txdb : CTxDB} {block : CBlock}
    {pindex : CBlockIndex} {openBlockFile : UInt32 → Option (List UInt8)}
    {pre post : List CTransaction} {tx : CTransaction} {acc : ConnectAcc} (hfits : block.Fits)
    (hlies : LiesAt openBlockFile block pindex) (hvtx : block.vtx = pre ++ tx :: post)
    (hacc : pre.foldlM (connectTx env ctx txdb pindex false)
      { nTxPos := firstTxPos block pindex false } = .ok acc) :
    CTransaction.readFromDisk openBlockFile (pindex.posOf acc.nTxPos) = some tx := by
  obtain ⟨⟨before, after, hopen, hbefore⟩, hbelow⟩ := hlies
  have hpos : acc.nTxPos = pre.foldl (nextTxPos false) (firstTxPos block pindex false) :=
    (Trace.foldlM_refines (A := ConnectAcc.nTxPos) (I := fun _ => True) (P := fun _ _ => True)
      (fun _ _ _ h _ => ⟨trivial, connectTx_nTxPos h, trivial⟩) hacc trivial).2.1
  -- the file is what comes before `tx`, its bytes, and what comes after
  obtain ⟨front, back, hfile, hfront, hsize⟩ : ∃ front back,
      before ++ block.serialize SER_DISK ++ after = front ++ (tx.serialize ++ back) ∧
      front.length = before.length + 80 + getSizeOfCompactSize block.vtx.length +
        (pre.flatMap CTransaction.serialize).length ∧
      front.length + 4 ≤ before.length + (block.serialize SER_DISK).length := by
    refine ⟨before ++ (block.toCBlockHeader.serialize ++ (writeCompactSize block.vtx.length ++
      pre.flatMap CTransaction.serialize)), post.flatMap CTransaction.serialize ++
      (serializeBytes block.vchBlockSig ++ after), ?_, ?_, ?_⟩
    all_goals simp only [CBlock.serialize, headerOnly_false (.inr rfl), Bool.false_eq_true,
      if_false, serializeVector, hvtx, List.flatMap_append, List.flatMap_cons, List.append_assoc,
      List.length_append, CBlockHeader.serialize_length, writeCompactSize_length,
      CTransaction.serialize_length tx, CTransaction.getSerializeSize]
    all_goals omega
  have hnat : acc.nTxPos.toNat = front.length := by
    rw [hpos, nTxPos_toNat _ _ (by rw [firstTxPos_toNat (by omega)]; omega),
      firstTxPos_toNat (by omega)]
    omega
  have hread := (hfits.vtx tx (by simp [hvtx])).reads
  simp only [CTransaction.readFromDisk, CBlockIndex.posOf, hopen]
  rw [hfile, hnat, List.drop_left, hread]

/-- Reading a transaction or a block from its bytes and anything after them gives it back and
leaves what came after. The size function gives the number of bytes reduced to 32 bits. A
transaction of a block on disk is read from the position that `ConnectBlock` computes. -/
theorem serialize_round_trip (nType : Nat) (hType : nType = SER_NETWORK ∨ nType = SER_DISK) :
    (∀ tx : CTransaction, tx.Fits →
      (∀ rest, CTransaction.unserialize (tx.serialize ++ rest) = .ok (tx, rest)) ∧
      tx.serSize.toNat = tx.serialize.length % 2 ^ 32) ∧
    (∀ block : CBlock, block.Fits →
      (∀ rest, CBlock.unserialize nType (block.serialize nType ++ rest) = .ok (block, rest)) ∧
      (block.serSize nType).toNat = (block.serialize nType).length % 2 ^ 32) ∧
    ∀ (env : Env) (ctx : Ctx) (txdb : CTxDB) (block : CBlock) (pindex : CBlockIndex)
      (openBlockFile : UInt32 → Option (List UInt8)) (pre post : List CTransaction)
      (tx : CTransaction) (acc : ConnectAcc), block.Fits → LiesAt openBlockFile block pindex →
      block.vtx = pre ++ tx :: post →
      pre.foldlM (connectTx env ctx txdb pindex false)
        { nTxPos := firstTxPos block pindex false } = .ok acc →
      CTransaction.readFromDisk openBlockFile (pindex.posOf acc.nTxPos) = some tx := by
  refine ⟨?_, ?_, ?_⟩
  · intro tx hfits
    refine ⟨hfits.reads, ?_⟩
    rw [tx.serSize_eq, UInt32.toNat_ofNat']
  · intro block hfits
    refine ⟨hfits.reads hType, ?_⟩
    rw [block.serSize_eq, UInt32.toNat_ofNat']
  · intro env ctx txdb block pindex openBlockFile pre post tx acc hfits hlies hvtx hacc
    exact position_reads hfits hlies hvtx hacc

namespace Sample

def hugeTx : CTransaction where
  nTime := 0
  vin := []
  vout := List.replicate 128 ⟨0, List.replicate MAX_SIZE 0⟩

/-- The file of the spending block: something before it, the block, and something after. -/
def spendFile (nFile : UInt32) : Option (List UInt8) :=
  if nFile = 1 then
    some (List.replicate 400 7 ++ spendBlock.serialize SER_DISK ++ [1, 2, 3])
  else none

end Sample

/-- More than `2 ^ 32` bytes are written, which no `unsigned int` counts. -/
theorem hugeTx_size_wraps : Sample.hugeTx.Fits ∧
    Sample.hugeTx.serialize.length ≠ Sample.hugeTx.serSize.toNat := by
  constructor
  · refine ⟨⟨by decide, by decide⟩, by simp [Sample.hugeTx], by simp [Sample.hugeTx], ?_, ?_⟩
    · rw [Sample.hugeTx, List.length_replicate]
      decide
    · intro txout hmem
      rw [List.eq_of_mem_replicate hmem]
      exact ⟨⟨by decide, by decide⟩, (List.length_replicate).le⟩
  · intro h
    have hlt := Sample.hugeTx.serSize.toNat_lt
    rw [← h, CTransaction.serialize_length, CTransaction.getSerializeSize, Sample.hugeTx] at hlt
    simp only [List.map_replicate, List.sum_replicate_nat, List.length_replicate] at hlt
    have hmax : MAX_SIZE = 33554432 := rfl
    omega

/-- The spending block is read back, and its second transaction is where the loop that has
connected the first says. -/
theorem spendBlock_round_trip :
    CBlock.unserialize SER_DISK (Sample.spendBlock.serialize SER_DISK ++ [1, 2, 3]) =
        .ok (Sample.spendBlock, [1, 2, 3]) ∧
      ∃ acc, [Sample.coinbase 20 0].foldlM (connectTx Sample.spendEnv ⟨30, 0, 0, .empty⟩
          Sample.fundedNode.txdb Sample.spendIndex false)
          { nTxPos := firstTxPos Sample.spendBlock Sample.spendIndex false } = .ok acc ∧
        CTransaction.readFromDisk Sample.spendFile (Sample.spendIndex.posOf acc.nTxPos) =
          some (Sample.transfer 21 [⟨10, 0⟩] [4000, 800]) := by
  have hfits : Sample.spendBlock.Fits := by decide
  have hlies : LiesAt Sample.spendFile Sample.spendBlock Sample.spendIndex :=
    ⟨⟨List.replicate 400 7, [1, 2, 3], if_pos (by decide), List.length_replicate.trans (by decide)⟩,
      by decide +kernel⟩
  obtain ⟨_, hblock, hpos⟩ := serialize_round_trip SER_DISK (.inr rfl)
  refine ⟨(hblock _ hfits).1 _, ?_⟩
  obtain ⟨acc, hacc⟩ := succeeds_iff.mp (show succeeds ([Sample.coinbase 20 0].foldlM
    (connectTx Sample.spendEnv ⟨30, 0, 0, .empty⟩ Sample.fundedNode.txdb Sample.spendIndex false)
    { nTxPos := firstTxPos Sample.spendBlock Sample.spendIndex false }) = true by decide)
  exact ⟨acc, hacc, hpos _ _ _ _ _ _ _ _ _ _ hfits hlies rfl hacc⟩

end Triangles
