import Mathlib.Algebra.Order.BigOperators.Group.Finset
import Triangles.Model.AddrFile
import Triangles.Proofs.AddrCheck
import Triangles.Proofs.AddrRead
import Triangles.Proofs.RoundTrip
import Triangles.Proofs.TriedHome

/-! The address manager comes back from its file: the entries under new ids, in the same buckets. -/

namespace Triangles

open Codec Roster

/-! Records. -/

/-- A record as its file has it: without what is kept in memory only. -/
def CAddrInfo.saved (info : CAddrInfo) : CAddrInfo :=
  { info with nLastTry := 0, nRefCount := 0, fInTried := false, nRandomPos := 0 }

/-- The fields hold values of their machine types. -/
structure CAddrInfo.Fits (info : CAddrInfo) : Prop where
  ip : info.ip.length = 16
  source : info.source.ip.length = 16
  nLastSuccess : InSigned 8 info.nLastSuccess
  nAttempts : InSigned 4 info.nAttempts

theorem CNetAddr.reads {addr : CNetAddr} (h : addr.ip.length = 16) :
    Reads CNetAddr.unserialize addr.ip addr := by
  have hread := readBytes_reads StreamError.endOfData addr.ip
  rw [h] at hread
  exact hread.map CNetAddr.mk

theorem CService.reads {service : CService} (h : service.ip.length = 16) :
    Reads CService.unserialize service.serialize service := by
  refine (CNetAddr.reads h).bind ?_
  have hport : service.port.toNat < 256 ^ 2 := service.port.toNat_lt
  have hread := readBytes_reads StreamError.endOfData (portBytes service.port)
  have hlen : (portBytes service.port).length = 2 := by
    rw [portBytes, List.length_reverse, wordBytes_length]
  rw [hlen] at hread
  have hvalue : UInt16.ofNat (leValue (portBytes service.port).reverse) = service.port := by
    rw [portBytes, List.reverse_reverse, leValue_wordBytes, Nat.mod_eq_of_lt hport,
      UInt16.ofNat_toNat]
  have hmap := hread.map fun portN =>
    ({ service.toCNetAddr with port := UInt16.ofNat (leValue portN.reverse) } : CService)
  rw [hvalue] at hmap
  exact hmap

theorem CAddress.reads {addr : CAddress} (h : addr.ip.length = 16) :
    Reads CAddress.unserialize (addr.serialize 0) { addr with nLastTry := 0 } := by
  have hversion : InSigned 4 0 := by decide
  have hservices : addr.nServices.toNat < 256 ^ 8 := addr.nServices.toNat_lt
  refine (readSigned_reads hversion).bind ((readUInt32_reads addr.nTime).bind
    ((readLE_reads hservices).bind ?_))
  rw [UInt64.ofNat_toNat]
  exact (CService.reads h).map fun service =>
    ({ service with nServices := addr.nServices, nTime := addr.nTime } : CAddress)

/-- A record is read back as far as it is written. -/
theorem CAddrInfo.Fits.reads {info : CAddrInfo} (h : info.Fits) :
    Reads CAddrInfo.unserialize info.serialize info.saved := by
  refine (CAddress.reads h.ip).bind ((CNetAddr.reads h.source).bind
    ((readSigned_reads h.nLastSuccess).bind ?_))
  exact (readSigned_reads h.nAttempts).map fun nAttempts =>
    ({ { info.toCAddress with nLastTry := 0 } with
      source := info.source, nLastSuccess := info.nLastSuccess, nAttempts := nAttempts } : CAddrInfo)

namespace CAddrMan

/-! Writing: the entries in the order of their ids, the new ones numbered. -/

def refed (l : List (Nat × CAddrInfo)) : List (Nat × CAddrInfo) :=
  l.filter fun entry => decide (entry.2.nRefCount ≠ 0)

/-- The new entries stand in the file one after the other, and each has its number. -/
theorem writeNew_spec {nNew : Int} {l : List (Nat × CAddrInfo)} (hl : (l.map Prod.fst).Nodup)
    {nIds : Nat} (hcount : nNew = nIds + (refed l).length) (m : AList (fun _ : Nat => Nat)) :
    (writeNew nNew l nIds m).2 = (refed l).flatMap (·.2.serialize) ∧
      (∀ i nId, ((refed l).map Prod.fst)[i]? = some nId →
        (writeNew nNew l nIds m).1.lookup nId = some (nIds + i)) ∧
      ∀ nId, nId ∉ l.map Prod.fst → (writeNew nNew l nIds m).1.lookup nId = m.lookup nId := by
  induction l generalizing nIds m with
  | nil => exact ⟨rfl, by simp [refed], fun _ _ => rfl⟩
  | cons entry l ih =>
    obtain ⟨nId, info⟩ := entry
    obtain ⟨hfresh, hnodup⟩ := List.nodup_cons.mp hl
    by_cases hrefs : info.nRefCount ≠ 0
    · have hfilter : refed ((nId, info) :: l) = (nId, info) :: refed l :=
        List.filter_cons_of_pos (decide_eq_true hrefs)
      rw [hfilter, List.length_cons] at hcount
      have hmore : ¬ (nIds : Int) = nNew := by omega
      have hcount' : nNew = ((nIds + 1 : Nat) : Int) + (refed l).length := by omega
      obtain ⟨hbytes, hnumber, hother⟩ := ih hnodup hcount' (m.insert nId nIds)
      rw [writeNew, if_neg hmore, if_pos hrefs, hfilter]
      refine ⟨?_, ?_, ?_⟩
      · rw [List.flatMap_cons, ← hbytes]
      · rintro (_ | i) n hn
        · obtain rfl := Option.some.inj hn
          rw [hother _ hfresh, AList.lookup_insert]
          rfl
        · rw [hnumber i n hn, Nat.add_right_comm]
          rfl
      · intro n hn
        rw [List.map_cons, List.mem_cons, not_or] at hn
        rw [hother n hn.2, AList.lookup_insert_ne hn.1]
    · have hfilter : refed ((nId, info) :: l) = refed l :=
        List.filter_cons_of_neg (by simpa using hrefs)
      rw [hfilter] at hcount
      rw [writeNew, if_neg hrefs, hfilter]
      split_ifs with hdone
      · -- all that there are have been written
        have hnone : refed l = [] := List.eq_nil_of_length_eq_zero (by omega)
        rw [hnone]
        exact ⟨rfl, by simp, fun _ _ => rfl⟩
      · obtain ⟨hbytes, hnumber, hother⟩ := ih hnodup hcount (m.insert nId nIds)
        refine ⟨hbytes, hnumber, ?_⟩
        intro n hn
        rw [List.map_cons, List.mem_cons, not_or] at hn
        rw [hother n hn.2, AList.lookup_insert_ne hn.1]

theorem writeTried_spec {nTried : Int} {l : List (Nat × CAddrInfo)} {nIds : Nat}
    (hcount : nTried = nIds + (l.filter (·.2.fInTried)).length) :
    writeTried nTried l nIds = (l.filter (·.2.fInTried)).flatMap (·.2.serialize) := by
  induction l generalizing nIds with
  | nil => rfl
  | cons entry l ih =>
    obtain ⟨nId, info⟩ := entry
    by_cases htried : info.fInTried = true
    · have hfilter : ((nId, info) :: l).filter (·.2.fInTried) = (nId, info) :: l.filter (·.2.fInTried) :=
        List.filter_cons_of_pos htried
      rw [hfilter, List.length_cons] at hcount
      have hmore : ¬ (nIds : Int) = nTried := by omega
      have hcount' : nTried = ((nIds + 1 : Nat) : Int) + (l.filter (·.2.fInTried)).length := by omega
      rw [writeTried, if_neg hmore, if_pos htried, hfilter, List.flatMap_cons, ih hcount']
    · have hfilter : ((nId, info) :: l).filter (·.2.fInTried) = l.filter (·.2.fInTried) :=
        List.filter_cons_of_neg htried
      rw [hfilter] at hcount
      rw [writeTried, if_neg htried, hfilter, ih hcount]
      split_ifs with hdone
      · have hnone : l.filter (·.2.fInTried) = [] := List.eq_nil_of_length_eq_zero (by omega)
        rw [hnone]
        rfl
      · rfl

/-! The order of the file. -/

section Order

variable {T : Times} {s : CAddrMan}

def order (s : CAddrMan) : List (Nat × CAddrInfo) := s.newRecords ++ s.triedRecords

def newId (s : CAddrMan) (nId : Nat) : Nat := (s.order.map Prod.fst).idxOf nId

theorem order_perm : s.order.Perm s.records := by
  have hsplit := List.filter_append_perm (fun entry : Nat × CAddrInfo => !entry.2.fInTried) s.records
  have hnot : (fun entry : Nat × CAddrInfo => !!entry.2.fInTried) = fun entry => entry.2.fInTried :=
    funext fun entry => Bool.not_not _
  rw [hnot] at hsplit
  exact hsplit

theorem order_nodup : (s.order.map Prod.fst).Nodup :=
  (order_perm.map Prod.fst).nodup_iff.mpr records_nodup

theorem mem_order {nId : Nat} {info : CAddrInfo} :
    (nId, info) ∈ s.order ↔ s.mapInfo.lookup nId = some info := by
  rw [order_perm.mem_iff, mem_records]

theorem mem_order_ids {nId : Nat} : nId ∈ s.order.map Prod.fst ↔ (s.mapInfo.lookup nId).isSome := by
  rw [List.mem_map, Option.isSome_iff_exists]
  constructor
  · rintro ⟨⟨n, info⟩, hmem, rfl⟩
    exact ⟨info, mem_order.mp hmem⟩
  · rintro ⟨info, hl⟩
    exact ⟨(nId, info), mem_order.mpr hl, rfl⟩

theorem order_newId {nId : Nat} {info : CAddrInfo} (hl : s.mapInfo.lookup nId = some info) :
    s.order[s.newId nId]? = some (nId, info) := by
  have hmem : nId ∈ s.order.map Prod.fst := mem_order_ids.mpr (by rw [hl]; rfl)
  have hget : (s.order.map Prod.fst)[s.newId nId]? = some nId := List.getElem?_idxOf hmem
  rw [List.getElem?_map] at hget
  obtain ⟨⟨n, info'⟩, hentry, rfl⟩ := Option.map_eq_some_iff.mp hget
  obtain rfl := Option.some.inj (hl.symm.trans (mem_order.mp (List.mem_of_getElem? hentry)))
  exact hentry

theorem newId_inj {a b : Nat} (ha : (s.mapInfo.lookup a).isSome)
    (h : s.newId a = s.newId b) : a = b :=
  (List.idxOf_inj (mem_order_ids.mpr ha)).mp h

theorem order_getElem? {n : Nat} {nId : Nat} {info : CAddrInfo} (h : s.order[n]? = some (nId, info)) :
    s.mapInfo.lookup nId = some info ∧ s.newId nId = n := by
  refine ⟨mem_order.mp (List.mem_of_getElem? h), ?_⟩
  obtain ⟨hlt, hget⟩ := List.getElem?_eq_some_iff.mp h
  have hlt' : n < (s.order.map Prod.fst).length := by rwa [List.length_map]
  have hid : (s.order.map Prod.fst)[n] = nId := by rw [List.getElem_map, hget]
  rw [newId, ← hid]
  exact order_nodup.idxOf_getElem n hlt'

/-- The first ids are those of the new records. -/
theorem newId_lt_iff {nId : Nat} {info : CAddrInfo} (hl : s.mapInfo.lookup nId = some info) :
    s.newId nId < s.newRecords.length ↔ info.fInTried = false := by
  have hentry := order_newId hl
  rw [order, List.getElem?_append] at hentry
  constructor
  · intro hlt
    rw [if_pos hlt] at hentry
    have hnew := (List.mem_filter.mp (List.mem_of_getElem? hentry)).2
    simpa using hnew
  · intro hnew
    by_contra hge
    rw [if_neg hge] at hentry
    have htried := (List.mem_filter.mp (List.mem_of_getElem? hentry)).2
    rw [hnew] at htried
    cases htried

/-- The entries of the file, none of which share an address. -/
theorem order_fresh (h : Listed T s) :
    ((s.order.map fun entry => entry.2.saved).map fun info => info.toCNetAddr).Nodup := by
  rw [List.map_map]
  refine List.Nodup.of_map s.mapAddr.lookup ?_
  have hids : (s.order.map ((fun info : CAddrInfo => info.toCNetAddr) ∘ fun entry => entry.2.saved)).map
      s.mapAddr.lookup = (s.order.map Prod.fst).map some := by
    rw [List.map_map, List.map_map]
    refine List.map_congr_left fun entry hentry => ?_
    obtain ⟨nId, info⟩ := entry
    have hl := mem_order.mp hentry
    refine (h.named info.toCNetAddr nId).mpr ?_
    rw [netAddr, hl, Option.map_some]
  rw [hids]
  exact order_nodup.map (Option.some_injective _)

theorem tried_room (h : Kept T .still s) {H : AddrHash} (hp : Placed H s)
    (k : Fin ADDRMAN_TRIED_BUCKET_COUNT) :
    ((s.order.map fun entry => entry.2.saved).drop s.newRecords.length).countP
      (fun info => info.getTriedBucket H = k) ≤ ADDRMAN_TRIED_BUCKET_SIZE := by
  rw [order, List.map_append, List.drop_left' (List.length_map _), List.countP_map,
    List.countP_eq_length_filter, ← List.length_map Prod.fst]
  refine le_trans (List.Subperm.length_le (List.subperm_of_subset ?_ ?_)) (h.tables.tried_small k)
  · exact (records_nodup.sublist (List.filter_sublist.map _)).sublist (List.filter_sublist.map _)
  · intro nId hmem
    obtain ⟨⟨n, info⟩, hfilter, rfl⟩ := List.mem_map.mp hmem
    obtain ⟨htried, hhome⟩ := List.mem_filter.mp hfilter
    obtain ⟨hrecord, hflag⟩ := List.mem_filter.mp htried
    have hl := mem_records.mp hrecord
    have hseat : s.seat n = some (true, info.nRefCount) := by
      rw [seat, hl, Option.map_some, CAddrInfo.seat, hflag]
    obtain ⟨⟨k', hk', -⟩, -⟩ := unique_of_held (h.tables.seated_tried hseat).2.1
    have hplace := hp k' n hk'
    rw [home, hl] at hplace
    have hsame : k' = k := (Option.some.inj hplace).symm.trans (of_decide_eq_true hhome)
    exact hsame ▸ hk'

end Order

/-! What is read. -/

section Read

variable {T : Times} {s : CAddrMan} (H : AddrHash)

def numbers (s : CAddrMan) (b : Fin ADDRMAN_NEW_BUCKET_COUNT) : List Nat := (s.vvNew b).map s.newId

def withNew (s : CAddrMan) : CAddrMan × Nat :=
  (s.newRecords.map fun entry => entry.2.saved).foldl (takeNew H ADDRMAN_NEW_BUCKET_COUNT)
    ({ nNew := s.nNew, nTried := s.nTried }, 0)

def withTried (s : CAddrMan) : CAddrMan × Nat :=
  (s.triedRecords.map fun entry => entry.2.saved).foldl (takeTried H)
    ({ (s.withNew H).1 with nIdCount := s.nNew.toNat }, 0)

def restored (s : CAddrMan) : CAddrMan :=
  ((List.finRange ADDRMAN_NEW_BUCKET_COUNT).foldl (takeBucket s.numbers)
    ({ (s.withTried H).1 with nTried := (s.withTried H).1.nTried - (s.withTried H).2 }, 0)).1

theorem signedBytes_natCast {n : Nat} (h : n < 2 ^ 32) : signedBytes 4 (n : Int) = wordBytes 4 n := by
  have hmod : (n : Int) % 256 ^ 4 = n := Int.emod_eq_of_lt (by omega) (by omega)
  rw [signedBytes, hmod, Int.toNat_natCast]

theorem inSigned_natCast {n : Nat} (h : n < 2 ^ 31) : InSigned 4 (n : Int) := by
  have hsize : (256 ^ 4 : Nat) = 2 ^ 32 := rfl
  rw [InSigned, hsize]
  omega

/-- There are fewer records than the tables have places. -/
theorem Kept.few (h : Kept T .still s) (hc : Counted s) :
    s.newRecords.length ≤ 16384 ∧ s.triedRecords.length ≤ 4096 := by
  have hfilled : ∀ {n : Nat} (v : Fin n → List Nat), (∀ b, (v b).length ≤ 64) → filled v ≤ n * 64 := by
    intro n v hv
    refine (Finset.sum_le_card_nsmul Finset.univ _ 64 fun b _ => hv b).trans ?_
    rw [Finset.card_univ, Fintype.card_fin, smul_eq_mul]
  constructor
  · refine le_trans ?_ (hfilled s.vvNew h.tables.new_small)
    rw [← length_flatMap, ← List.length_map Prod.fst]
    refine List.Subperm.length_le (List.subperm_of_subset newRecords_nodup fun nId hmem => ?_)
    obtain ⟨⟨n, info⟩, hfilter, rfl⟩ := List.mem_map.mp hmem
    obtain ⟨hrecord, hflag⟩ := List.mem_filter.mp hfilter
    have hseat : s.seat n = some (false, info.nRefCount) := by
      rw [seat, mem_records.mp hrecord, Option.map_some, CAddrInfo.seat]
      simpa using hflag
    obtain ⟨-, hr, -, -, hge⟩ := h.tables.seated_new hseat
    have hge := hge (Motion.still_ne_joining n)
    rw [Motion.owed_still, add_zero] at hr
    rw [← List.count_pos_iff, count_flatMap]
    change 0 < held s.vvNew n
    omega
  · have htried := (h.counters hc).1
    have hcount := h.tables.tried_count
    have hall := hfilled s.vvTried h.tables.tried_small
    have hplaces : ADDRMAN_TRIED_BUCKET_COUNT * 64 = 4096 := rfl
    omega

/-- The entries with references are the new ones. -/
theorem refed_records (h : Kept T .still s) : refed s.records = s.newRecords := by
  refine List.filter_congr fun entry hentry => ?_
  obtain ⟨nId, info⟩ := entry
  have hl := mem_records.mp hentry
  have hseat : s.seat nId = some (info.fInTried, info.nRefCount) := by
    rw [seat, hl, Option.map_some, CAddrInfo.seat]
  cases hflag : info.fInTried with
  | true =>
    rw [hflag] at hseat
    have hzero := (h.tables.seated_tried hseat).1
    simp [hzero]
  | false =>
    rw [hflag] at hseat
    have hpos := (h.tables.seated_new hseat).2.2.2.2 (Motion.still_ne_joining nId)
    have hne : info.nRefCount ≠ 0 := by omega
    simp [hne]

theorem Kept.new_of_mem (h : Kept T .still s) {b : Fin ADDRMAN_NEW_BUCKET_COUNT} {nId : Nat}
    (hb : nId ∈ s.vvNew b) : ∃ info, s.mapInfo.lookup nId = some info ∧ info.fInTried = false := by
  obtain ⟨r, hseat⟩ := h.tables.seat_of_new hb
  obtain ⟨info, hl, hi⟩ := Option.map_eq_some_iff.mp hseat
  exact ⟨info, hl, (Prod.mk.inj hi).1⟩

/-- The loop over entries that are written one after the other. -/
theorem newLoop_reads {l : List (Nat × CAddrInfo)}
    (h : ∀ entry ∈ l, Reads CAddrInfo.unserialize entry.2.serialize entry.2.saved) (nUBuckets : Int)
    (acc : CAddrMan × Nat) :
    Reads (readLoop (readNewRound H nUBuckets) l.length acc) (l.flatMap fun entry => entry.2.serialize)
      ((l.map fun entry => entry.2.saved).foldl (takeNew H nUBuckets) acc) := by
  rw [List.foldl_map]
  exact readLoop_reads l (fun entry hentry acc => (h entry hentry).map (takeNew H nUBuckets acc)) acc

theorem triedLoop_reads {l : List (Nat × CAddrInfo)}
    (h : ∀ entry ∈ l, Reads CAddrInfo.unserialize entry.2.serialize entry.2.saved)
    (acc : CAddrMan × Nat) :
    Reads (readLoop (readTriedRound H) l.length acc) (l.flatMap fun entry => entry.2.serialize)
      ((l.map fun entry => entry.2.saved).foldl (takeTried H) acc) := by
  rw [List.foldl_map]
  exact readLoop_reads l (fun entry hentry acc => (h entry hentry).map (takeTried H acc)) acc

/-- A bucket whose members have these numbers. -/
theorem bucket_reads {mapUnkIds : AList (fun _ : Nat => Nat)} {b : Fin ADDRMAN_NEW_BUCKET_COUNT}
    (hsmall : (s.vvNew b).length ≤ 64)
    (hindex : ∀ nId ∈ s.vvNew b, (mapUnkIds.lookup nId).getD 0 = s.newId nId)
    (hlow : ∀ nId ∈ s.vvNew b, s.newId nId < 2 ^ 31) (acc : CAddrMan × Nat) :
    Reads (readBucketRound ADDRMAN_NEW_BUCKET_COUNT acc) (writeBucket mapUnkIds (s.vvNew b))
      (takeBucket s.numbers acc b) := by
  obtain ⟨s', c⟩ := acc
  have hsize : InSigned 4 ((s.vvNew b).length : Int) := inSigned_natCast (by omega)
  refine (readSigned_reads hsize).bind ?_
  rw [Int.toNat_natCast]
  have hword : ∀ nId ∈ s.vvNew b, ∀ s', Reads (readIndexRound ADDRMAN_NEW_BUCKET_COUNT c s')
      (signedBytes 4 ((mapUnkIds.lookup nId).getD 0 : Nat))
      (CAddrMan.takeIndex ADDRMAN_NEW_BUCKET_COUNT c s' (s.newId nId)) := by
    intro nId hmem s'
    have hlt := hlow nId hmem
    rw [hindex nId hmem, signedBytes_natCast (by omega)]
    exact (readLE_reads (show s.newId nId < 256 ^ 4 by omega)).map
      (CAddrMan.takeIndex ADDRMAN_NEW_BUCKET_COUNT c s')
  have hloop := readLoop_reads (s.vvNew b) hword s'
  rw [takeBucket, numbers, List.foldl_map]
  exact hloop.map fun s => (s, c + 1)

/-- The bytes of the file are read as the folds above. -/
theorem serialize_reads (h : Kept T .still s) (hc : Counted s)
    (hfits : ∀ {nId info}, s.mapInfo.lookup nId = some info → info.Fits)
    (hashOf : List UInt8 → AddrHash) {nKey : List UInt8} (hkey : nKey.length ≤ MAX_SIZE) :
    Reads (unserialize hashOf) (s.serialize nKey) (nKey, s.restored (hashOf nKey)) := by
  obtain ⟨htried, hnew⟩ := h.counters hc
  obtain ⟨hfewNew, hfewTried⟩ := h.few hc
  have hcount : s.nNew = ((0 : Nat) : Int) + (refed s.records).length := by
    rw [refed_records h, hnew]
    omega
  obtain ⟨hbytes, hnumber, -⟩ := writeNew_spec records_nodup hcount ∅
  rw [refed_records h] at hbytes hnumber
  have hbytesTried : writeTried s.nTried s.records 0 =
      s.triedRecords.flatMap fun entry => entry.2.serialize :=
    writeTried_spec (by rw [htried]; exact (zero_add _).symm)
  -- the number of a member is its new id
  have hmember : ∀ b, ∀ nId ∈ s.vvNew b, s.newId nId < s.newRecords.length ∧
      ((writeNew s.nNew s.records 0 ∅).1.lookup nId).getD 0 = s.newId nId := by
    intro b nId hb
    obtain ⟨info, hl, hflag⟩ := h.new_of_mem hb
    have hlt := (newId_lt_iff hl).mpr hflag
    have hentry := order_newId hl
    rw [order, List.getElem?_append_left hlt] at hentry
    have hget : (s.newRecords.map Prod.fst)[s.newId nId]? = some nId := by
      rw [List.getElem?_map, hentry]
      rfl
    rw [hnumber _ nId hget, Nat.zero_add]
    exact ⟨hlt, rfl⟩
  have hrecord : ∀ entry ∈ s.records,
      Reads CAddrInfo.unserialize entry.2.serialize entry.2.saved :=
    fun entry hentry => (hfits (mem_records.mp hentry)).reads
  have hsizeNew : s.nNew.toNat = s.newRecords.length := by omega
  have hsizeTried : s.nTried.toNat = s.triedRecords.length := by omega
  have hinNew : InSigned 4 s.nNew := hnew ▸ inSigned_natCast (by omega)
  have hinTried : InSigned 4 s.nTried := htried ▸ inSigned_natCast (by omega)
  have hinBuckets : InSigned 4 (ADDRMAN_NEW_BUCKET_COUNT : Int) := inSigned_natCast (by decide)
  have hversion : Reads (readLE 1) (wordBytes 1 0) 0 := readLE_reads (by decide)
  refine hversion.bind ((serializeBytes_reads hkey).bind ((readSigned_reads hinNew).bind
    ((readSigned_reads hinTried).bind ((readSigned_reads hinBuckets).bind ?_))))
  have hloopNew : Reads (readLoop (readNewRound (hashOf nKey) ADDRMAN_NEW_BUCKET_COUNT) s.nNew.toNat
      ({ nNew := s.nNew, nTried := s.nTried }, 0)) (s.newRecords.flatMap fun entry => entry.2.serialize)
      (s.withNew (hashOf nKey)) := by
    rw [hsizeNew]
    exact newLoop_reads (hashOf nKey)
      (fun entry hentry => hrecord entry (List.mem_of_mem_filter hentry)) _ _
  have hloopTried : Reads (readLoop (readTriedRound (hashOf nKey)) s.nTried.toNat
      ({ (s.withNew (hashOf nKey)).1 with nIdCount := s.nNew.toNat }, 0))
      (s.triedRecords.flatMap fun entry => entry.2.serialize) (s.withTried (hashOf nKey)) := by
    rw [hsizeTried]
    exact triedLoop_reads (hashOf nKey)
      (fun entry hentry => hrecord entry (List.mem_of_mem_filter hentry)) _
  have hloopBuckets := readLoop_reads (List.finRange ADDRMAN_NEW_BUCKET_COUNT)
    (fun b _ acc => bucket_reads (h.tables.new_small b) (fun nId hb => (hmember b nId hb).2)
      (fun nId hb => (hmember b nId hb).1.trans_le (by omega)) acc)
    ({ (s.withTried (hashOf nKey)).1 with
      nTried := (s.withTried (hashOf nKey)).1.nTried - (s.withTried (hashOf nKey)).2 }, 0)
  rw [List.length_finRange] at hloopBuckets
  rw [hbytes, hbytesTried]
  refine hloopNew.bind (hloopTried.bind ?_)
  rw [Int.toNat_natCast, restored]
  have hmap := hloopBuckets.map fun buckets => (nKey, buckets.1)
  exact hmap

end Read

end CAddrMan

end Triangles
