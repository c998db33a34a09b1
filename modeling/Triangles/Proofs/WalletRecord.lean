import Triangles.Lib.Slots
import Triangles.Model.WalletRecord
import Triangles.Proofs.RoundTrip

/-! The records of the wallet file are read as they were written, and writing leaves them as they
were. -/

namespace Triangles

open Codec Decimal
open Std (ExtTreeMap)

/-! Strings and maps. -/

theorem string_reads {str : List UInt8} (h : str.length ≤ MAX_SIZE) :
    Reads unserializeString (serializeBytes str) str :=
  (readCompactSize_reads h).bind (readBytes_reads _ str)

/-- A computation that takes nothing from the stream. -/
theorem reads_lift {α : Type} {e : Except StreamError α} {a : α} (h : e = .ok a) :
    Reads (StateT.lift e : Reader StreamError α) [] a := by
  intro rest
  rw [h]
  rfl

/-- The strings have a size that can be read. -/
def PairFits (item : List UInt8 × List UInt8) : Prop :=
  item.1.length ≤ MAX_SIZE ∧ item.2.length ≤ MAX_SIZE

theorem PairFits.reads {item : List UInt8 × List UInt8} (h : PairFits item) :
    Reads unserializePair (serializePair item) item :=
  (string_reads h.1).bind ((string_reads h.2).map fun second => (item.1, second))

structure MapFits (m : mapValue_t) : Prop where
  size : m.size ≤ MAX_SIZE
  items : ∀ item ∈ m.toList, PairFits item

theorem foldl_toList (m : mapValue_t) :
    m.toList.foldl (fun m item => m.insertIfNew item.1 item.2) ∅ = m := by
  refine ExtTreeMap.ext_getElem? fun k => Option.ext fun v => ?_
  rw [Slots.getElem?_foldl_insertIfNew m.toList (Slots.toList_keys_nodup m),
    ExtTreeMap.getElem?_empty, ExtTreeMap.mem_toList_iff_getElem?_eq_some]
  simp

theorem MapFits.reads {m : mapValue_t} (h : MapFits m) : Reads unserializeMap (serializeMap m) m := by
  refine (readCompactSize_reads h.size).bind ?_
  have hround : ∀ item ∈ m.toList, ∀ m' : mapValue_t,
      Reads (readMapItem m') (serializePair item) (m'.insertIfNew item.1 item.2) :=
    fun item hitem m' => (h.items item hitem).reads.map
      fun item : List UInt8 × List UInt8 => m'.insertIfNew item.1 item.2
  have hloop := readLoop_reads m.toList hround ∅
  rw [ExtTreeMap.length_toList, foldl_toList] at hloop
  exact hloop

theorem not_mem_iff {m : mapValue_t} {k : List UInt8} : k ∉ m ↔ m[k]? = none := by
  rw [ExtTreeMap.mem_iff_isSome_getElem?, Bool.not_eq_true, Option.isSome_eq_false_iff,
    Option.isNone_iff_eq_none]

theorem getElem?_erase_of_ne (m : mapValue_t) {k a : List UInt8} (h : k ≠ a) : (m.erase k)[a]? = m[a]? := by
  rw [ExtTreeMap.getElem?_erase, if_neg]
  exact fun heq => h (Std.LawfulEqCmp.compare_eq_iff_eq.mp heq)

theorem getElem?_insert_of_ne (m : mapValue_t) {k a : List UInt8} (v : List UInt8) (h : k ≠ a) :
    (m.insert k v)[a]? = m[a]? := by
  rw [Slots.getElem?_insert_eq, if_neg h]

/-- What is taken out again was never there. -/
theorem erase_insert {m : mapValue_t} {k : List UInt8} (v : List UInt8) (h : k ∉ m) :
    (m.insert k v).erase k = m := by
  refine ExtTreeMap.ext_getElem? fun a => ?_
  by_cases hk : k = a
  · subst hk
    rw [ExtTreeMap.getElem?_erase_self, ExtTreeMap.getElem?_eq_none h]
  · rw [getElem?_erase_of_ne _ hk, getElem?_insert_of_ne _ v hk]

theorem erase_of_not_mem {m : mapValue_t} {k : List UInt8} (h : k ∉ m) : m.erase k = m := by
  refine ExtTreeMap.ext_getElem? fun a => ?_
  by_cases hk : k = a
  · subst hk
    rw [ExtTreeMap.getElem?_erase_self, ExtTreeMap.getElem?_eq_none h]
  · rw [getElem?_erase_of_ne _ hk]

/-! Positions. -/

theorem atoi64_intText {n : Int} (h : InSigned 8 n) : atoi64 (intText n) = n := by
  have hskip : (intText n).dropWhile isSpace = intText n := by
    cases htext : intText n with
    | nil => rfl
    | cons c rest =>
      have hhead := headD_intText n
      rw [htext, List.headD_cons] at hhead
      refine List.dropWhile_cons_of_neg ?_
      rcases hhead with rfl | hdigit
      · decide
      · -- a digit is no blank
        rw [isDigit, decide_eq_true_eq, UInt8.le_iff_toNat_le, UInt8.le_iff_toNat_le] at hdigit
        rw [isSpace, Bool.or_eq_true, beq_iff_eq, decide_eq_true_eq, UInt8.le_iff_toNat_le,
          UInt8.le_iff_toNat_le]
        rintro (rfl | ⟨-, hle⟩)
        · exact absurd hdigit.1 (by decide)
        · exact absurd (le_trans hdigit.1 hle) (by decide)
  have hsize : (256 ^ 8 : Nat) = 2 ^ 64 := rfl
  rw [InSigned, hsize] at h
  rw [atoi64, hskip, readInt_intText]
  omega

theorem readOrderPos_writeOrderPos {nOrderPos : Int} {m : mapValue_t} (h : InSigned 8 nOrderPos)
    (hm : ascii "n" ∉ m) : readOrderPos (writeOrderPos nOrderPos m) = nOrderPos := by
  unfold writeOrderPos
  split_ifs with hnone
  · rw [readOrderPos, ExtTreeMap.getElem?_eq_none hm, hnone]
  · rw [readOrderPos, ExtTreeMap.getElem?_insert_self]
    exact atoi64_intText h

/-- The position is written under its own key only. -/
theorem getElem?_writeOrderPos (nOrderPos : Int) (m : mapValue_t) {k : List UInt8} (hk : ascii "n" ≠ k) :
    (writeOrderPos nOrderPos m)[k]? = m[k]? := by
  unfold writeOrderPos
  split_ifs
  · rfl
  · exact getElem?_insert_of_ne m _ hk

/-! Transactions. -/

structure CMerkleTx.Fits (mtx : CMerkleTx) : Prop where
  tx : mtx.tx.Fits
  hashBlock : mtx.hashBlock < 256 ^ 32
  branch_length : mtx.vMerkleBranch.length ≤ MAX_SIZE
  branch : ∀ hash ∈ mtx.vMerkleBranch, hash < 256 ^ 32
  nIndex : InSigned 4 mtx.nIndex

theorem CMerkleTx.Fits.reads {mtx : CMerkleTx} (h : mtx.Fits) :
    Reads CMerkleTx.unserialize mtx.serialize mtx := by
  refine h.tx.reads.bind ((readLE_reads h.hashBlock).bind ?_)
  refine (serializeVector_reads (by decide) h.branch_length fun hash hmem =>
    readLE_reads (h.branch hash hmem)).bind ?_
  exact (readSigned_reads h.nIndex).map fun nIndex =>
    (⟨mtx.tx, mtx.hashBlock, mtx.vMerkleBranch, nIndex⟩ : CMerkleTx)

namespace WalletRecord

structure Fits (wtx : WalletRecord) : Prop where
  merkle : wtx.toCMerkleTx.Fits
  prev_length : wtx.vtxPrev.length ≤ MAX_SIZE
  prev : ∀ mtx ∈ wtx.vtxPrev, mtx.Fits
  map : MapFits wtx.writtenMap
  form_length : wtx.vOrderForm.length ≤ MAX_SIZE
  form : ∀ item ∈ wtx.vOrderForm, PairFits item
  nOrderPos : InSigned 8 wtx.nOrderPos

theorem getElem?_eraseReserved (m : mapValue_t) (k : List UInt8) :
    (eraseReserved m)[k]? = if k ∈ reservedKeys then none else m[k]? := by
  unfold eraseReserved
  induction reservedKeys generalizing m with
  | nil => rfl
  | cons key keys ih =>
    rw [List.foldl_cons, ih]
    by_cases hk : key = k
    · subst hk
      rw [ExtTreeMap.getElem?_erase_self, if_pos List.mem_cons_self, ite_self]
    · rw [getElem?_erase_of_ne m hk]
      simp [Ne.symm hk]

variable {wtx : WalletRecord}

def namedMap (wtx : WalletRecord) : mapValue_t :=
  (wtx.mapValue.insert (ascii "fromaccount") wtx.strFromAccount).insert (ascii "spent")
    (wtx.vfSpent.map fun f => if f then 0x31 else 0x30)

theorem writtenMap_eq : wtx.writtenMap =
    if wtx.nTimeSmart ≠ 0 then (writeOrderPos wtx.nOrderPos wtx.namedMap).insert (ascii "timesmart")
      (natText wtx.nTimeSmart.toNat)
    else writeOrderPos wtx.nOrderPos wtx.namedMap := rfl

theorem getElem?_writtenMap_of_ne {k : List UInt8} (hk : ascii "timesmart" ≠ k) :
    wtx.writtenMap[k]? = (writeOrderPos wtx.nOrderPos wtx.namedMap)[k]? := by
  rw [writtenMap_eq]
  split_ifs
  · exact getElem?_insert_of_ne _ _ hk
  · rfl

theorem getElem?_namedMap {k : List UInt8} (hspent : ascii "spent" ≠ k)
    (hfrom : ascii "fromaccount" ≠ k) : wtx.namedMap[k]? = wtx.mapValue[k]? := by
  rw [namedMap, getElem?_insert_of_ne _ _ hspent, getElem?_insert_of_ne _ _ hfrom]

/-- The keys that are not reserved are written as they are. -/
theorem getElem?_writtenMap {k : List UInt8} (hk : k ∉ reservedKeys) :
    wtx.writtenMap[k]? = wtx.mapValue[k]? := by
  simp only [reservedKeys, List.mem_cons, List.not_mem_nil, or_false, not_or] at hk
  obtain ⟨hfrom, -, hspent, hn, htime⟩ := hk
  rw [getElem?_writtenMap_of_ne (Ne.symm htime), getElem?_writeOrderPos _ _ (Ne.symm hn),
    getElem?_namedMap (Ne.symm hspent) (Ne.symm hfrom)]

theorem eraseReserved_writtenMap (hkeys : ∀ key ∈ reservedKeys, key ∉ wtx.mapValue) :
    eraseReserved wtx.writtenMap = wtx.mapValue := by
  refine ExtTreeMap.ext_getElem? fun k => ?_
  rw [getElem?_eraseReserved]
  split_ifs with hk
  · rw [ExtTreeMap.getElem?_eq_none (hkeys k hk)]
  · exact getElem?_writtenMap hk

/-! The fields that are kept in the map. -/

theorem writtenMap_fromaccount : wtx.writtenMap[ascii "fromaccount"]? = some wtx.strFromAccount := by
  have hspent : ascii "spent" ≠ ascii "fromaccount" := by decide
  rw [getElem?_writtenMap_of_ne (by decide), getElem?_writeOrderPos _ _ (by decide), namedMap,
    getElem?_insert_of_ne _ _ hspent, ExtTreeMap.getElem?_insert_self]

theorem writtenMap_spent : wtx.writtenMap[ascii "spent"]? =
    some (wtx.vfSpent.map fun f => if f then 0x31 else 0x30) := by
  rw [getElem?_writtenMap_of_ne (by decide), getElem?_writeOrderPos _ _ (by decide), namedMap,
    ExtTreeMap.getElem?_insert_self]

theorem writtenMap_orderPos (h : InSigned 8 wtx.nOrderPos) (hkey : ascii "n" ∉ wtx.mapValue) :
    readOrderPos wtx.writtenMap = wtx.nOrderPos := by
  have hnamed : ascii "n" ∉ wtx.namedMap := by
    rw [not_mem_iff, getElem?_namedMap (by decide) (by decide), ← not_mem_iff]
    exact hkey
  have hread := readOrderPos_writeOrderPos h hnamed
  rw [readOrderPos, getElem?_writtenMap_of_ne (by decide)]
  exact hread

theorem writtenMap_timesmart (hkey : ascii "timesmart" ∉ wtx.mapValue) :
    wtx.writtenMap[ascii "timesmart"]? =
      if wtx.nTimeSmart ≠ 0 then some (natText wtx.nTimeSmart.toNat) else none := by
  rw [writtenMap_eq]
  split_ifs
  · rw [ExtTreeMap.getElem?_insert_self]
  · rw [getElem?_writeOrderPos _ _ (by decide), getElem?_namedMap (by decide) (by decide),
      not_mem_iff.mp hkey]

theorem atoi64_time (n : UInt32) : UInt32.ofInt (atoi64 (natText n.toNat)) = n := by
  have hlt := n.toNat_lt
  have htext : natText n.toNat = intText n.toNat := by
    rw [intText, if_neg (by omega), Int.natAbs_natCast]
  have hin : InSigned 8 (n.toNat : Int) := by
    have hsize : (256 ^ 8 : Nat) = 2 ^ 64 := rfl
    rw [InSigned, hsize]
    omega
  have hmod : (n.toNat : Int) % 2 ^ 32 = n.toNat := Int.emod_eq_of_lt (by omega) (by omega)
  rw [htext, atoi64_intText hin, UInt32.ofInt, hmod, Int.toNat_natCast, UInt32.ofNat_toNat]

/-- The fields come out of the map as they went in. -/
theorem ofMap_writtenMap (h : InSigned 8 wtx.nOrderPos)
    (hkeys : ∀ key ∈ reservedKeys, key ∉ wtx.mapValue) (fSpent : Bool) :
    ({ wtx with
      strFromAccount := [], vfSpent := [], nOrderPos := -1, nTimeSmart := 0,
      mapValue := wtx.writtenMap } : WalletRecord).ofMap fSpent = wtx := by
  have hflags : (wtx.vfSpent.map fun f => if f then (0x31 : UInt8) else 0x30).map (· != 0x30) =
      wtx.vfSpent := by
    rw [List.map_map]
    refine List.map_id'' ?_ _
    rintro (_ | _) <;> rfl
  have htime : wtx.writtenMap[ascii "timesmart"]? =
      if wtx.nTimeSmart ≠ 0 then some (natText wtx.nTimeSmart.toNat) else none :=
    writtenMap_timesmart (hkeys _ (by decide))
  have hfrom : wtx.writtenMap.getD (ascii "fromaccount") [] = wtx.strFromAccount := by
    rw [ExtTreeMap.getD_eq_getD_getElem?, writtenMap_fromaccount, Option.getD_some]
  have hpos : readOrderPos wtx.writtenMap = wtx.nOrderPos :=
    writtenMap_orderPos h (hkeys _ (by decide))
  by_cases hzero : wtx.nTimeSmart = 0
  · rw [if_neg (not_not.mpr hzero)] at htime
    simp only [ofMap, writtenMap_spent, hflags, htime, hfrom, hpos, eraseReserved_writtenMap hkeys,
      ← hzero]
  · rw [if_pos hzero] at htime
    simp only [ofMap, writtenMap_spent, hflags, htime, atoi64_time, hfrom, hpos,
      eraseReserved_writtenMap hkeys]

/-- The record is read as it was, and the object is as it was when it has been written. -/
theorem Fits.survives (h : wtx.Fits) (hkeys : ∀ key ∈ reservedKeys, key ∉ wtx.mapValue) :
    Reads unserialize wtx.serialize.1 wtx ∧ wtx.serialize.2 = wtx := by
  constructor
  · refine h.merkle.reads.bind ?_
    refine (serializeVector_reads (by decide) h.prev_length fun mtx hmem =>
      (h.prev mtx hmem).reads).bind ?_
    refine h.map.reads.bind ?_
    refine (serializeVector_reads (by decide) h.form_length fun item hmem =>
      (h.form item hmem).reads).bind ?_
    refine (readUInt32_reads _).bind ((readUInt32_reads _).bind ?_)
    have hfrom : wtx.fFromMe.toNat < 256 ^ 1 := wtx.fFromMe.toNat_lt
    have hspent : (if wtx.vfSpent.any id then 1 else 0) < 256 ^ 1 := by split_ifs <;> decide
    refine (readLE_reads hfrom).bind ?_
    have hread := (readLE_reads hspent).map fun fSpent => ({ wtx with
      strFromAccount := [], vfSpent := [], nOrderPos := -1, nTimeSmart := 0,
      fFromMe := UInt8.ofNat wtx.fFromMe.toNat,
      mapValue := wtx.writtenMap } : WalletRecord).ofMap (fSpent != 0)
    have hfields := ofMap_writtenMap h.nOrderPos hkeys
      ((if wtx.vfSpent.any id then 1 else 0) != 0)
    rw [UInt8.ofNat_toNat, hfields] at hread
    rw [UInt8.ofNat_toNat]
    exact hread
  · rw [serialize, eraseReserved_writtenMap hkeys]

end WalletRecord

/-! Accounting entries. -/

/-- A map whose bytes are few enough can be read. -/
theorem MapFits.of_length {m : mapValue_t} (h : (serializeMap m).length ≤ MAX_SIZE) : MapFits m := by
  have hitems : ∀ (l : List (List UInt8 × List UInt8)), l.length ≤ (l.flatMap serializePair).length ∧
      ∀ item ∈ l, item.1.length ≤ (l.flatMap serializePair).length ∧
        item.2.length ≤ (l.flatMap serializePair).length := by
    intro l
    induction l with
    | nil => exact ⟨le_rfl, fun item hitem => by cases hitem⟩
    | cons item l ih =>
      have hpos : ∀ n, 1 ≤ getSizeOfCompactSize n := fun n => by
        unfold getSizeOfCompactSize
        split_ifs <;> decide
      have hfirst := hpos item.1.length
      have hlen : ((item :: l).flatMap serializePair).length =
          getSizeOfCompactSize item.1.length + item.1.length +
            (getSizeOfCompactSize item.2.length + item.2.length) +
            (l.flatMap serializePair).length := by
        rw [List.flatMap_cons, List.length_append, serializePair, List.length_append,
          serializeBytes_length, serializeBytes_length]
      refine ⟨?_, ?_⟩
      · have hrest := ih.1
        rw [hlen, List.length_cons]
        omega
      · intro other hother
        rw [hlen]
        rcases List.mem_cons.mp hother with rfl | hother
        · omega
        · have hrest := ih.2 other hother
          omega
  obtain ⟨hsize, hstrings⟩ := hitems m.toList
  have hbytes : (serializeMap m).length =
      (writeCompactSize m.size).length + (m.toList.flatMap serializePair).length := by
    rw [serializeMap, List.length_append]
  refine ⟨?_, fun item hitem => ?_⟩
  · rw [← ExtTreeMap.length_toList]
    omega
  · have hitem := hstrings item hitem
    exact ⟨by omega, by omega⟩

namespace CAccountingEntry

structure Fits (entry : CAccountingEntry) : Prop where
  nCreditDebit : InSigned 8 entry.nCreditDebit
  nTime : InSigned 8 entry.nTime
  strOtherAccount : entry.strOtherAccount.length ≤ MAX_SIZE
  comment : entry.writtenComment.length ≤ MAX_SIZE
  nOrderPos : InSigned 8 entry.nOrderPos

theorem plain_of_not_mem {str : List UInt8} (h : 0 ∉ str) : plain str = str := by
  rw [plain, List.takeWhile_eq_self_iff]
  intro c hc
  rw [bne_iff_ne]
  rintro rfl
  exact h hc

theorem plain_append {str : List UInt8} (h : 0 ∉ str) (rest : List UInt8) :
    plain (str ++ 0 :: rest) = str := by
  have hall : ∀ c ∈ str, (c != 0) = true := by
    intro c hc
    rw [bne_iff_ne]
    rintro rfl
    exact h hc
  rw [plain, List.takeWhile_append_of_pos hall, List.takeWhile_cons_of_neg (by decide),
    List.append_nil]

variable {entry : CAccountingEntry}

/-- Nothing is appended to the comment when there is nothing to append. -/
theorem writtenComment_cases (entry : CAccountingEntry) :
    (entry.mapValue = ∅ ∧ entry.nOrderPos = -1 ∧ entry.ssExtra = [] ∧
      entry.writtenComment = entry.strComment) ∨
    entry.writtenComment = entry.strComment ++
      0 :: (serializeMap (writeOrderPos entry.nOrderPos entry.mapValue) ++ entry.ssExtra) := by
  unfold writtenComment
  simp only
  split_ifs with hempty
  · left
    rw [Bool.and_eq_true, ExtTreeMap.isEmpty_iff, List.isEmpty_iff] at hempty
    obtain ⟨hmap, hextra⟩ := hempty
    have hnone : entry.nOrderPos = -1 := by
      by_contra hsome
      rw [writeOrderPos, if_neg hsome] at hmap
      exact absurd hmap ExtTreeMap.insert_ne_empty
    rw [writeOrderPos, if_pos hnone] at hmap
    exact ⟨hmap, hnone, hextra, rfl⟩
  · exact .inr rfl

/-- What the comment is read as: the map that was written, and what was behind it. -/
theorem readExtra_writtenComment (h : entry.Fits) (hcomment : 0 ∉ entry.strComment) :
    ∃ extra, readExtra entry.writtenComment = .ok extra ∧ plain entry.writtenComment = entry.strComment ∧
      extra.getD (∅, []) = (writeOrderPos entry.nOrderPos entry.mapValue, entry.ssExtra) := by
  rcases writtenComment_cases entry with ⟨hmap, hnone, hextra, hwritten⟩ | hwritten
  · have hfind : entry.strComment.contains 0 = false := by
      rw [List.contains_eq_mem, decide_eq_false hcomment]
    refine ⟨none, ?_, ?_, ?_⟩
    · rw [readExtra, hwritten, hfind, if_neg Bool.false_ne_true]
      rfl
    · rw [hwritten, plain_of_not_mem hcomment]
    · rw [writeOrderPos, if_pos hnone, hmap, hextra]
      rfl
  · have hplain : plain entry.writtenComment = entry.strComment := by
      rw [hwritten, plain_append hcomment]
    have hfind : entry.writtenComment.contains 0 = true := by
      rw [List.contains_eq_mem, hwritten]
      exact decide_eq_true (List.mem_append_right _ List.mem_cons_self)
    have hlen : (serializeMap (writeOrderPos entry.nOrderPos entry.mapValue)).length ≤ MAX_SIZE := by
      have hle := h.comment
      rw [hwritten, List.length_append, List.length_cons, List.length_append] at hle
      omega
    have hdrop : entry.writtenComment.drop ((plain entry.writtenComment).length + 1) =
        serializeMap (writeOrderPos entry.nOrderPos entry.mapValue) ++ entry.ssExtra := by
      rw [hplain, hwritten, List.drop_append]
      simp
    refine ⟨some (writeOrderPos entry.nOrderPos entry.mapValue, entry.ssExtra), ?_, hplain, rfl⟩
    rw [readExtra, hfind, if_pos rfl, hdrop, (MapFits.of_length hlen).reads]
    rfl

theorem erase_writeOrderPos {nOrderPos : Int} {m : mapValue_t} (hm : ascii "n" ∉ m) :
    (writeOrderPos nOrderPos m).erase (ascii "n") = m := by
  unfold writeOrderPos
  split_ifs
  · exact erase_of_not_mem hm
  · exact erase_insert _ hm

/-- An entry read into an empty one, whose key is that of the record. -/
theorem Fits.survives (h : entry.Fits) (hcomment : 0 ∉ entry.strComment)
    (hkey : ascii "n" ∉ entry.mapValue) {nVersion : Int} (hversion : InSigned 4 nVersion) :
    Reads (unserialize { strAccount := entry.strAccount, nEntryNo := entry.nEntryNo })
        (entry.serialize nVersion).1 entry ∧
      (entry.serialize nVersion).2 = entry := by
  obtain ⟨extra, hread, hplain, hextra⟩ := readExtra_writtenComment h hcomment
  have herase : (writeOrderPos entry.nOrderPos entry.mapValue).erase (ascii "n") = entry.mapValue :=
    erase_writeOrderPos hkey
  have hpos : readOrderPos (writeOrderPos entry.nOrderPos entry.mapValue) = entry.nOrderPos :=
    readOrderPos_writeOrderPos h.nOrderPos hkey
  constructor
  · refine (readSigned_reads hversion).bind ((readSigned_reads h.nCreditDebit).bind
      ((readSigned_reads h.nTime).bind ((string_reads h.strOtherAccount).bind ?_)))
    have hstring := string_reads h.comment
    rw [← List.append_nil (serializeBytes entry.writtenComment)]
    refine hstring.bind ?_
    have hfields := (reads_lift hread).map fun extra : Option (mapValue_t × List UInt8) =>
      ({ strAccount := entry.strAccount
         nEntryNo := entry.nEntryNo
         nCreditDebit := entry.nCreditDebit
         nTime := entry.nTime
         strOtherAccount := entry.strOtherAccount
         strComment := plain entry.writtenComment
         mapValue := (extra.getD (∅, [])).1.erase (ascii "n")
         nOrderPos := readOrderPos (extra.getD (∅, [])).1
         ssExtra := (extra.getD (∅, [])).2 } : CAccountingEntry)
    rw [hextra, hplain, herase, hpos] at hfields
    rw [hplain]
    exact hfields
  · rw [serialize, hplain, herase]

end CAccountingEntry

/-- Transactions and accounting entries are read as they were written, and writing does not change
them. -/
theorem wallet_records_survive :
    (∀ wtx : WalletRecord, wtx.Fits → (∀ key ∈ WalletRecord.reservedKeys, key ∉ wtx.mapValue) →
      Reads WalletRecord.unserialize wtx.serialize.1 wtx ∧ wtx.serialize.2 = wtx) ∧
    ∀ (nVersion : Int) (entry : CAccountingEntry), InSigned 4 nVersion → entry.Fits →
      0 ∉ entry.strComment → ascii "n" ∉ entry.mapValue →
      Reads (CAccountingEntry.unserialize { strAccount := entry.strAccount, nEntryNo := entry.nEntryNo })
          (entry.serialize nVersion).1 entry ∧
        (entry.serialize nVersion).2 = entry :=
  ⟨fun _ h hkeys => h.survives hkeys,
    fun _ _ hversion h hcomment hkey => h.survives hcomment hkey hversion⟩

namespace Sample

def paidRecord : WalletRecord where
  tx := { nTime := 7, vin := [], vout := [⟨5, [0x51]⟩] }
  strFromAccount := ascii "till"
  vfSpent := [true]
  nOrderPos := 12
  nTimeSmart := 1500000000

def moveEntry : CAccountingEntry where
  strAccount := ascii "till"
  nCreditDebit := -5
  nTime := 1500000000
  strOtherAccount := ascii "safe"
  strComment := ascii "evening"
  nOrderPos := 13

end Sample

theorem wallet_records_survive_sample :
    (Reads WalletRecord.unserialize Sample.paidRecord.serialize.1 Sample.paidRecord ∧
      Sample.paidRecord.serialize.2 = Sample.paidRecord) ∧
    Reads (CAccountingEntry.unserialize { strAccount := ascii "till" })
        (Sample.moveEntry.serialize 60000).1 Sample.moveEntry ∧
      (Sample.moveEntry.serialize 60000).2 = Sample.moveEntry := by
  obtain ⟨hwtx, hentry⟩ := wallet_records_survive
  constructor
  · refine hwtx Sample.paidRecord ?_ fun key _ => ExtTreeMap.not_mem_empty
    exact ⟨⟨by decide, by decide, by decide, by simp [Sample.paidRecord], by decide⟩, by decide,
      by simp [Sample.paidRecord], .of_length (by decide), by decide, by simp [Sample.paidRecord],
      by decide⟩
  · exact hentry 60000 Sample.moveEntry (by decide)
      ⟨by decide, by decide, by decide, by decide, by decide⟩ (by decide) ExtTreeMap.not_mem_empty

/-- A size over the limit is not read. -/
theorem readCompactSize_large {n : Nat} (h : MAX_SIZE < n) (hn : n < 2 ^ 64) (rest : List UInt8) :
    readCompactSize (writeCompactSize n ++ rest) = .error .sizeTooLarge := by
  have hmax : 33554432 < n := h
  -- the size is in the four or in the eight bytes after the first one
  have hbytes : ∃ ch width, writeCompactSize n = wordBytes 1 ch ++ wordBytes width n ∧ ch < 256 ^ 1 ∧
      n < 256 ^ width ∧ readSizeAfter ch = readLE width := by
    by_cases hfour : n ≤ 0xffffffff
    · refine ⟨254, 4, ?_, by decide, by omega, rfl⟩
      rw [writeCompactSize, if_neg (by omega), if_neg (by omega), if_pos hfour]
      rfl
    · refine ⟨255, 8, ?_, by decide, hn, rfl⟩
      rw [writeCompactSize, if_neg (by omega), if_neg (by omega), if_neg hfour]
      rfl
  obtain ⟨ch, width, hwrite, hch, hwidth, hafter⟩ := hbytes
  have hsize : Reads (readLE width) (wordBytes width n) n := readLE_reads hwidth
  rw [hwrite, List.append_assoc, readCompactSize, (readLE_reads hch).next, hafter, hsize.next, if_pos h]
  rfl

/-- An account name of more bytes than the limit is written but not read. -/
theorem long_not_read {name : List UInt8} (h : MAX_SIZE < name.length)
    (hname : name.length < 2 ^ 64) :
    CAccountingEntry.unserialize {}
      (CAccountingEntry.serialize 60000 { strOtherAccount := name }).1 = .error .sizeTooLarge := by
  have hversion : Reads (readSigned 4) (signedBytes 4 60000) 60000 := readSigned_reads (by decide)
  have hzero : Reads (readSigned 8) (signedBytes 8 0) 0 := readSigned_reads (by decide)
  rw [CAccountingEntry.unserialize, CAccountingEntry.serialize]
  change (readSigned 4 >>= _) (signedBytes 4 60000 ++ _) = _
  rw [hversion.next]
  change (readSigned 8 >>= _) (signedBytes 8 0 ++ _) = _
  rw [hzero.next]
  change (readSigned 8 >>= _) (signedBytes 8 0 ++ _) = _
  rw [hzero.next, serializeBytes, List.append_assoc]
  change ((readCompactSize >>= _) _ >>= _) = _
  change ((readCompactSize _ >>= _) >>= _) = _
  rw [readCompactSize_large h hname]
  rfl

namespace Sample

def longAccount : CAccountingEntry where
  strOtherAccount := List.replicate (MAX_SIZE + 1) 0x61

end Sample

theorem longAccount_not_read :
    0 ∉ Sample.longAccount.strComment ∧ ascii "n" ∉ Sample.longAccount.mapValue ∧
      CAccountingEntry.unserialize {} (Sample.longAccount.serialize 60000).1 =
        .error .sizeTooLarge := by
  have hlen : (List.replicate (MAX_SIZE + 1) (0x61 : UInt8)).length = MAX_SIZE + 1 :=
    List.length_replicate
  refine ⟨List.not_mem_nil, ExtTreeMap.not_mem_empty, long_not_read ?_ ?_⟩
  · rw [hlen]
    exact Nat.lt_succ_self MAX_SIZE
  · rw [hlen]
    decide

end Triangles
