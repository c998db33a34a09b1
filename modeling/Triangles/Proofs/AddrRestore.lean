import Triangles.Proofs.AddrFile

/-! The manager that is read is the one that was written, with other ids. -/

namespace Triangles

open Codec Roster

namespace CAddrMan

variable {T : Times} {s : CAddrMan} {H : AddrHash}

/-! The entries. -/

theorem filled_empty (nNew nTried : Int) (n : Nat) :
    Filled H n [] { nNew := nNew, nTried := nTried } where
  lookup _ := rfl
  mapAddr _ _ := by simp
  vRandom := rfl
  vvTried _ := rfl
  length _ := by rw [List.drop_nil]; rfl
  vvNew := rfl

theorem entries_eq (s : CAddrMan) : s.order.map (fun entry => entry.2.saved) =
    (s.newRecords.map fun entry => entry.2.saved) ++ s.triedRecords.map fun entry => entry.2.saved := by
  rw [order, List.map_append]

/-- All entries are read, and no tried one is lost. -/
theorem withTried_spec (h : Kept T .still s) (hc : Counted s) (hp : Placed H s) :
    Filled H s.newRecords.length (s.order.map fun entry => entry.2.saved) (s.withTried H).1 ∧
      (s.withTried H).1.nNew = s.nNew ∧ (s.withTried H).1.nTried = s.nTried ∧
      (s.withTried H).1.nIdCount = s.order.length ∧ (s.withTried H).2 = 0 := by
  obtain ⟨-, hnew⟩ := h.counters hc
  have hfresh := order_fresh h.listed
  have hroom := tried_room h hp
  rw [entries_eq] at hfresh hroom ⊢
  have hlen : (s.newRecords.map fun entry => entry.2.saved).length = s.newRecords.length :=
    List.length_map _
  have hsaved : ∀ info ∈ s.newRecords.map fun entry => entry.2.saved, info.fInTried = false := by
    intro info hinfo
    obtain ⟨entry, -, rfl⟩ := List.mem_map.mp hinfo
    rfl
  have hfreshNew : ((([] : List CAddrInfo) ++ s.newRecords.map fun entry => entry.2.saved).map
      fun info => info.toCNetAddr).Nodup := by
    rw [List.map_append] at hfresh
    exact (List.nodup_append.mp hfresh).1
  have hstart : Filled H s.newRecords.length [] { nNew := s.nNew, nTried := s.nTried } :=
    filled_empty s.nNew s.nTried _
  have hloopNew : Filled H s.newRecords.length
      ([] ++ s.newRecords.map fun entry => entry.2.saved) (s.withNew H).1 ∧
      (s.withNew H).1.nNew = s.nNew ∧ (s.withNew H).1.nTried = s.nTried :=
    hstart.foldl_takeNew rfl hfreshNew hsaved (by rw [hlen]; exact (Nat.zero_add _).le)
  obtain ⟨hfilled, hcountNew, hcountTried⟩ := hloopNew
  have hfilled' : Filled H s.newRecords.length (s.newRecords.map fun entry => entry.2.saved)
      { (s.withNew H).1 with nIdCount := s.nNew.toNat } :=
    ⟨hfilled.lookup, hfilled.mapAddr, hfilled.vRandom, hfilled.vvTried, hfilled.length,
      hfilled.vvNew⟩
  have hids : s.nNew.toNat = (s.newRecords.map fun entry => entry.2.saved).length := by
    rw [hlen, hnew, Int.toNat_natCast]
  have hloopTried : Filled H s.newRecords.length
      ((s.newRecords.map fun entry => entry.2.saved) ++ s.triedRecords.map fun entry => entry.2.saved)
      (s.withTried H).1 ∧
      (s.withTried H).1.nNew = (s.withNew H).1.nNew ∧
      (s.withTried H).1.nTried = (s.withNew H).1.nTried ∧
      (s.withTried H).1.nIdCount =
        ((s.newRecords.map fun entry => entry.2.saved) ++
          s.triedRecords.map fun entry => entry.2.saved).length ∧
      (s.withTried H).2 = 0 :=
    hfilled'.foldl_takeTried hids hfresh hlen.ge hroom
  obtain ⟨hall, hn, ht, hid, hlost⟩ := hloopTried
  refine ⟨hall, hn.trans hcountNew, ht.trans hcountTried, ?_, hlost⟩
  rw [← entries_eq, List.length_map] at hid
  exact hid

/-! The references. -/

/-- A number stands for the id in as many buckets as hold the id. -/
theorem held_numbers {nId : Nat} (hl : (s.mapInfo.lookup nId).isSome) :
    held s.numbers (s.newId nId) = held s.vvNew nId := by
  refine held_map (fun b => List.Perm.refl _) fun b x hx hsame => ?_
  exact (newId_inj hl hsame.symm).symm

theorem held_numbers_le (h : Kept T .still s) (n : Nat) : held s.numbers n ≤ 4 := by
  by_cases hn : ∃ nId, (s.mapInfo.lookup nId).isSome ∧ s.newId nId = n
  · obtain ⟨nId, hl, rfl⟩ := hn
    rw [held_numbers hl]
    rcases hs : s.seat nId with _ | ⟨_ | _, r⟩
    · have hnone := h.tables.seated_none hs
      omega
    · obtain ⟨-, hr, hle, -, -⟩ := h.tables.seated_new hs
      rw [Motion.owed_still, add_zero] at hr
      omega
    · have htried := h.tables.seated_tried hs
      omega
  · have hzero : held s.numbers n = 0 := by
      refine held_map_zero (fun b => List.Perm.refl (s.numbers b)) fun b nId hb hsame => ?_
      obtain ⟨info, hl, -⟩ := h.new_of_mem hb
      exact hn ⟨nId, by rw [hl]; rfl, hsame⟩
    rw [hzero]
    exact Nat.zero_le 4

theorem restored_refed (h : Kept T .still s) (hc : Counted s) (hp : Placed H s) :
    Refed { (s.withTried H).1 with nTried := s.nTried }
      (refsOf s.numbers (List.finRange ADDRMAN_NEW_BUCKET_COUNT)) (s.restored H) := by
  obtain ⟨hfilled, -, htried, -, hlost⟩ := withTried_spec h hc hp
  have hbase : ({ (s.withTried H).1 with
      nTried := (s.withTried H).1.nTried - (s.withTried H).2 } : CAddrMan) =
      { (s.withTried H).1 with nTried := s.nTried } := by
    rw [htried, hlost, Nat.cast_zero, sub_zero]
  rw [restored, hbase]
  have hlook : ∀ n, (s.withTried H).1.mapInfo.lookup n = (s.order[n]?).map fun entry =>
      { entry.2.saved with
        nRandomPos := n, fInTried := decide (s.newRecords.length ≤ n) } := by
    intro n
    rw [hfilled.lookup, List.getElem?_map, Option.map_map]
    rfl
  have hstart : Refed { (s.withTried H).1 with nTried := s.nTried } []
      { (s.withTried H).1 with nTried := s.nTried } := by
    refine ⟨rfl, fun n => ?_, fun b => ?_⟩
    · change (s.withTried H).1.mapInfo.lookup n = ((s.withTried H).1.mapInfo.lookup n).map _
      rw [hlook, Option.map_map]
      rfl
    · change ((s.withTried H).1.vvNew b).Perm []
      rw [hfilled.vvNew]
  rw [← List.nil_append (refsOf _ _)]
  refine hstart.foldl_takeBucket ?_ ?_ ?_ ?_
  · rw [List.length_finRange, List.map_coe_finRange_eq_range, List.range_eq_range']
  · rintro b - n hn
    obtain ⟨nId, hb, rfl⟩ := List.mem_map.mp hn
    obtain ⟨info, hl, -⟩ := h.new_of_mem hb
    change ((s.withTried H).1.mapInfo.lookup _).isSome
    rw [hlook, order_newId hl]
    rfl
  · refine refsOf_nodup (List.nodup_finRange _) fun b => ?_
    refine List.Nodup.map_on (fun x hx y _ hxy => ?_) (h.tables.nodup b)
    obtain ⟨info, hl, -⟩ := h.new_of_mem hx
    exact newId_inj (by rw [hl]; rfl) hxy
  · intro n
    rw [List.nil_append, refsOf_snd, count_flatMap]
    exact held_numbers_le h n

/-! The whole manager. -/

/-- The records come back under their new ids, with their references and without the time of the
last try. -/
theorem restored_lookup (h : Kept T .still s) (hc : Counted s) (hp : Placed H s) (n : Nat) :
    (s.restored H).mapInfo.lookup n = (s.order[n]?).map fun entry =>
      { entry.2 with nLastTry := 0, nRandomPos := n } := by
  obtain ⟨hfilled, -, -, -, -⟩ := withTried_spec h hc hp
  rw [(restored_refed h hc hp).lookup]
  change ((s.withTried H).1.mapInfo.lookup n).map _ = _
  rw [hfilled.lookup, List.getElem?_map, Option.map_map, Option.map_map]
  cases hentry : s.order[n]? with
  | none => rfl
  | some entry =>
    obtain ⟨nId, info⟩ := entry
    obtain ⟨hl, rfl⟩ := order_getElem? hentry
    have hcount : (((refsOf s.numbers (List.finRange ADDRMAN_NEW_BUCKET_COUNT)).map Prod.snd).count
        (s.newId nId) : Int) = info.nRefCount := by
      rw [refsOf_snd, count_flatMap, held_numbers (by rw [hl]; rfl)]
      have hseat : s.seat nId = some (info.fInTried, info.nRefCount) := by
        rw [seat, hl, Option.map_some, CAddrInfo.seat]
      cases hflag : info.fInTried with
      | true =>
        rw [hflag] at hseat
        obtain ⟨hr, -, hnone⟩ := h.tables.seated_tried hseat
        rw [hr, hnone]
        rfl
      | false =>
        rw [hflag] at hseat
        obtain ⟨-, hr, -⟩ := h.tables.seated_new hseat
        rw [hr, Motion.owed_still, add_zero]
    have hflag : decide (s.newRecords.length ≤ s.newId nId) = info.fInTried := by
      have hlow := newId_lt_iff hl
      cases htried : info.fInTried with
      | true =>
        refine decide_eq_true (not_lt.mp fun hlt => ?_)
        rw [hlow.mp hlt] at htried
        cases htried
      | false => exact decide_eq_false (not_le.mpr (hlow.mpr htried))
    simp only [Option.map_some, Function.comp_apply, hcount, hflag]
    rfl

theorem restored_vvNew (h : Kept T .still s) (hc : Counted s) (hp : Placed H s)
    (b : Fin ADDRMAN_NEW_BUCKET_COUNT) :
    ((s.restored H).vvNew b).Perm ((s.vvNew b).map s.newId) := by
  have hrefs := (restored_refed h hc hp).vvNew b
  rw [refsOf_filter s.numbers (List.nodup_finRange _) b, if_pos (List.mem_finRange b)] at hrefs
  exact hrefs

theorem restored_vvTried (h : Kept T .still s) (hc : Counted s) (hp : Placed H s)
    (k : Fin ADDRMAN_TRIED_BUCKET_COUNT) :
    ((s.restored H).vvTried k).Perm ((s.vvTried k).map s.newId) := by
  obtain ⟨hfilled, -, -, -, -⟩ := withTried_spec h hc hp
  have hsame : (s.restored H).vvTried k = (s.withTried H).1.vvTried k := by
    rw [(restored_refed h hc hp).eq]
  have hrecord : ∀ nId, nId ∈ s.vvTried k →
      ∃ info, s.mapInfo.lookup nId = some info ∧ info.fInTried = true := by
    intro nId hk
    obtain ⟨info, hl, hi⟩ := Option.map_eq_some_iff.mp (h.tables.seat_of_tried hk)
    exact ⟨info, hl, (Prod.mk.inj hi).1⟩
  rw [hsame, hfilled.vvTried, List.length_map]
  refine (List.perm_ext_iff_of_nodup ?_ ?_).mpr fun n => ?_
  · exact List.nodup_range.filter _
  · refine List.Nodup.map_on (fun x hx y _ hxy => ?_) ?_
    · obtain ⟨info, hl, -⟩ := hrecord x hx
      exact newId_inj (by rw [hl]; rfl) hxy
    · rw [List.nodup_iff_count_le_one]
      intro nId
      by_cases hk : nId ∈ s.vvTried k
      · exact (unique_of_held (h.tables.seated_tried (h.tables.seat_of_tried hk)).2.1).2 k
      · rw [List.count_eq_zero.mpr hk]
        exact Nat.zero_le 1
  · rw [List.mem_filter, List.mem_range, decide_eq_true_eq, List.getElem?_map, Option.map_map,
      List.mem_map]
    constructor
    · rintro ⟨-, hhigh, hbucket⟩
      obtain ⟨⟨nId, info⟩, hentry, hhome⟩ := Option.map_eq_some_iff.mp hbucket
      obtain ⟨hl, rfl⟩ := order_getElem? hentry
      have hflag : info.fInTried = true := by
        by_contra hno
        exact absurd ((newId_lt_iff hl).mpr (Bool.eq_false_iff.mpr hno)) (not_lt.mpr hhigh)
      have hseat : s.seat nId = some (true, info.nRefCount) := by
        rw [seat, hl, Option.map_some, CAddrInfo.seat, hflag]
      obtain ⟨⟨k', hk', -⟩, -⟩ := unique_of_held (h.tables.seated_tried hseat).2.1
      have hplace := hp k' nId hk'
      rw [home, hl] at hplace
      have hkk : k' = k := (Option.some.inj hplace).symm.trans hhome
      exact ⟨nId, hkk ▸ hk', rfl⟩
    · rintro ⟨nId, hk, rfl⟩
      obtain ⟨info, hl, hflag⟩ := hrecord nId hk
      have hentry := order_newId hl
      refine ⟨(List.getElem?_eq_some_iff.mp hentry).1, ?_, ?_⟩
      · refine not_lt.mp fun hlt => ?_
        rw [(newId_lt_iff hl).mp hlt] at hflag
        cases hflag
      · rw [hentry]
        have hplace := hp k nId hk
        rw [home, hl] at hplace
        exact hplace

/-- What the restored manager keeps: its lists and tables are in order. -/
theorem Kept.restored {T' : Times} (h : Kept T .still s) (hc : Counted s) (hp : Placed H s)
    (hT : ∀ {nLastTry nLastSuccess fInTried}, T.allowed nLastTry nLastSuccess fInTried →
      T'.allowed 0 nLastSuccess fInTried) :
    Kept T' .still (s.restored H) ∧ Counted (s.restored H) := by
  obtain ⟨hfilled, hnNew, -, hid, -⟩ := withTried_spec h hc hp
  have heq := (restored_refed h hc hp).eq
  have hlook := restored_lookup h hc hp
  have hrandom : (s.restored H).vRandom = List.range s.order.length := by
    rw [heq]
    change (s.withTried H).1.vRandom = _
    rw [hfilled.vRandom, List.length_map]
  have hseatOf : ∀ n, (s.restored H).seat n = (s.order[n]?).map fun entry => entry.2.seat := by
    intro n
    rw [seat, hlook, Option.map_map]
    rfl
  have hsome : ∀ {nId}, (s.seat nId).isSome → ∃ info, s.mapInfo.lookup nId = some info := by
    intro nId hs
    rw [seat, Option.isSome_map] at hs
    exact Option.isSome_iff_exists.mp hs
  refine ⟨⟨⟨?_, ?_, ?_, ?_⟩, ?_⟩, ?_⟩
  · -- every record knows its place
    intro i n
    rw [hrandom, place, hlook, Option.map_map]
    by_cases hn : n < s.order.length
    · rw [List.getElem?_eq_getElem hn, Option.map_some, Function.comp_apply, Option.some.injEq]
      constructor
      · intro hi
        obtain ⟨hlt, hget⟩ := List.getElem?_eq_some_iff.mp hi
        rw [List.getElem_range] at hget
        exact hget.symm
      · rintro rfl
        exact List.getElem?_range hn
    · rw [List.getElem?_eq_none (not_lt.mp hn), Option.map_none]
      refine iff_of_false (fun hi => ?_) (by simp)
      obtain ⟨hlt, hget⟩ := List.getElem?_eq_some_iff.mp hi
      rw [List.getElem_range] at hget
      rw [List.length_range] at hlt
      omega
  · intro a n
    rw [netAddr, hlook, Option.map_map, heq]
    change (s.withTried H).1.mapAddr.lookup a = some n ↔ _
    rw [hfilled.mapAddr, List.getElem?_map, Option.map_map]
    rfl
  · intro n info hl
    rw [hlook] at hl
    obtain ⟨entry, hentry, -⟩ := Option.map_eq_some_iff.mp hl
    rw [heq]
    change n < (s.withTried H).1.nIdCount
    rw [hid]
    exact (List.getElem?_eq_some_iff.mp hentry).1
  · intro n info hl
    rw [hlook] at hl
    obtain ⟨⟨nId, info'⟩, hentry, rfl⟩ := Option.map_eq_some_iff.mp hl
    have htimes : T.allowed info'.nLastTry info'.nLastSuccess info'.fInTried :=
      h.listed.timed (order_getElem? hentry).1
    exact hT htimes
  · have hcount : (s.restored H).nTried = s.nTried := by rw [heq]
    rw [hcount]
    refine h.tables.rename s.newId ?_ ?_ ?_ (restored_vvTried h hc hp)
      (restored_vvNew h hc hp)
    · intro a b ha hab
      obtain ⟨info, hl⟩ := hsome ha
      exact newId_inj (by rw [hl]; rfl) hab
    · intro a ha
      obtain ⟨info, hl⟩ := hsome ha
      rw [hseatOf, order_newId hl, seat, hl]
      rfl
    · intro n hn
      rw [hseatOf, Option.isSome_map] at hn
      obtain ⟨⟨nId, info⟩, hentry⟩ := Option.isSome_iff_exists.mp hn
      obtain ⟨hl, hnew⟩ := order_getElem? hentry
      exact ⟨nId, by rw [seat, hl]; rfl, hnew⟩
  · obtain ⟨htried, hnew⟩ := h.counters hc
    have hcounts : (s.restored H).nTried = s.nTried ∧ (s.restored H).nNew = s.nNew := by
      rw [heq]
      exact ⟨rfl, hnNew⟩
    rw [Counted, hrandom, List.length_range, hcounts.1, hcounts.2, htried, hnew, order,
      List.length_append]
    rw [Nat.cast_add, add_comm]

/-- The two managers have the same entries under other ids, in the same buckets. -/
structure SameEntries (rename : Nat → Nat) (s s' : CAddrMan) : Prop where
  injective : ∀ {a b}, (s.mapInfo.lookup a).isSome → rename a = rename b → a = b
  entry : ∀ {nId info}, s.mapInfo.lookup nId = some info →
    ∃ info', s'.mapInfo.lookup (rename nId) = some info' ∧ info'.saved = info.saved ∧
      info'.fInTried = info.fInTried ∧ info'.nRefCount = info.nRefCount
  onto : ∀ {n}, (s'.mapInfo.lookup n).isSome → ∃ nId, (s.mapInfo.lookup nId).isSome ∧ rename nId = n
  new : ∀ b, (s'.vvNew b).Perm ((s.vvNew b).map rename)
  tried : ∀ k, (s'.vvTried k).Perm ((s.vvTried k).map rename)

theorem restored_entries (h : Kept T .still s) (hc : Counted s) (hp : Placed H s) :
    SameEntries s.newId s (s.restored H) where
  injective ha hab := newId_inj ha hab
  entry hl := by
    rw [restored_lookup h hc hp, order_newId hl]
    exact ⟨_, rfl, rfl, rfl, rfl⟩
  onto {n} hn := by
    rw [restored_lookup h hc hp, Option.isSome_map] at hn
    obtain ⟨⟨nId, info⟩, hentry⟩ := Option.isSome_iff_exists.mp hn
    obtain ⟨hl, hid⟩ := order_getElem? hentry
    exact ⟨nId, by rw [hl]; rfl, hid⟩
  new := restored_vvNew h hc hp
  tried := restored_vvTried h hc hp

end CAddrMan

def Times.any : Times where
  allowed _ _ _ := True
  fresh := trivial
  back _ := trivial

def Times.lasting : Times where
  allowed _ nLastSuccess fInTried := 0 ≤ nLastSuccess ∧ (fInTried = true → nLastSuccess ≠ 0)
  fresh := ⟨le_refl 0, fun h => by cases h⟩
  back h := ⟨h.1, fun h => by cases h⟩

def AddrOp.Dated : AddrOp → Prop
  | .good _ _ nTime => 0 < nTime
  | _ => True

theorem AddrOp.keeps_any (op : AddrOp) : op.Keeps .any := by
  cases op with
  | attempt addr nTime => exact fun _ => trivial
  | good | add | connected | select | getAddr => trivial

theorem AddrOp.Dated.keeps {op : AddrOp} (h : op.Dated) : op.Keeps .lasting := by
  cases op with
  | good chance addr nTime => exact ⟨le_of_lt h, fun _ => ne_of_gt h⟩
  | attempt addr nTime => exact fun ht => ht
  | add | connected | select | getAddr => trivial

/-- After any run the file is read back to a manager with the same entries in the same buckets,
and it passes the check when the successes have positive times. -/
theorem addrMan_persists (hashOf : List UInt8 → AddrHash) (nKey : List UInt8)
    (hkey : nKey.length ≤ MAX_SIZE) (ops : List AddrOp)
    (hfits : ∀ nId info, (CAddrMan.run (hashOf nKey) ops).mapInfo.lookup nId = some info →
      info.Fits) :
    ∃ s' rename,
      Reads (CAddrMan.unserialize hashOf) ((CAddrMan.run (hashOf nKey) ops).serialize nKey)
        (nKey, s') ∧
      CAddrMan.SameEntries rename (CAddrMan.run (hashOf nKey) ops) s' ∧
      ((∀ op ∈ ops, op.Dated) → s'.check_ = 0) := by
  have hany : ∀ op ∈ ops, op.Keeps .any := fun op _ => op.keeps_any
  obtain ⟨hkept, hcounted⟩ := CAddrMan.Kept.run (hashOf nKey) hany
  have hplaced : CAddrMan.Placed (hashOf nKey) (CAddrMan.run (hashOf nKey) ops) :=
    CAddrMan.Placed.run hany
  refine ⟨_, _, CAddrMan.serialize_reads hkept hcounted (fun hl => hfits _ _ hl) hashOf hkey,
    CAddrMan.restored_entries hkept hcounted hplaced, fun hdated => ?_⟩
  have hlasting : ∀ op ∈ ops, op.Keeps .lasting := fun op hop => (hdated op hop).keeps
  obtain ⟨hkept', -⟩ := CAddrMan.Kept.run (hashOf nKey) hlasting
  -- no time of a try is in the file
  have hchecked : CAddrMan.Kept .checked .still
      ((CAddrMan.run (hashOf nKey) ops).restored (hashOf nKey)) ∧
      CAddrMan.Counted ((CAddrMan.run (hashOf nKey) ops).restored (hashOf nKey)) :=
    hkept'.restored hcounted hplaced fun ht => ⟨le_refl 0, ht⟩
  exact hchecked.1.check_eq_zero hchecked.2

namespace Sample

def home : CAddress := { ip := [10, 0, 0, 1, 0, 0, 0, 0, 0, 0, 0, 0, 0, 0, 0, 0], port := 24112 }

def homeCalls (nTime : Int) : List AddrOp :=
  [.add chance home home.toCNetAddr 0, .good chance home.toCService nTime]

theorem homeCalls_records :
    (CAddrMan.run addrHash (homeCalls 1600003600)).records = [(0, { home with
      source := home.toCNetAddr, nTime := 1600003600, nLastTry := 1600003600,
      nLastSuccess := 1600003600, fInTried := true })] := by
  decide

theorem homeCalls_undated :
    (CAddrMan.run addrHash (homeCalls 0)).records = [(0, { home with
      source := home.toCNetAddr, nTime := 0, fInTried := true })] := by
  decide

end Sample

theorem addrMan_persists_one :
    ∃ s' rename,
      Reads (CAddrMan.unserialize fun _ => Sample.addrHash)
        ((CAddrMan.run Sample.addrHash (Sample.homeCalls 1600003600)).serialize [7]) ([7], s') ∧
      CAddrMan.SameEntries rename (CAddrMan.run Sample.addrHash (Sample.homeCalls 1600003600)) s' ∧
      s'.check_ = 0 := by
  have hfits : ∀ nId info,
      (CAddrMan.run Sample.addrHash (Sample.homeCalls 1600003600)).mapInfo.lookup nId = some info →
        info.Fits := by
    intro nId info hl
    have hrecord := CAddrMan.mem_records.mpr hl
    rw [Sample.homeCalls_records, List.mem_singleton] at hrecord
    obtain ⟨-, rfl⟩ := Prod.mk.inj hrecord
    exact ⟨rfl, rfl, by decide, by decide⟩
  obtain ⟨s', rename, hreads, hentries, hcheck⟩ := addrMan_persists (fun _ => Sample.addrHash) [7]
    (by decide) (Sample.homeCalls 1600003600) hfits
  refine ⟨s', rename, hreads, hentries, hcheck ?_⟩
  intro op hop
  simp only [Sample.homeCalls, List.mem_cons, List.not_mem_nil, or_false] at hop
  rcases hop with rfl | rfl
  · trivial
  · exact (by decide : (0 : Int) < 1600003600)

set_option maxRecDepth 4000 in
/-- A success at time zero is what the check finds in the manager that is read. -/
theorem addrMan_persists_undated :
    ∃ s', Reads (CAddrMan.unserialize fun _ => Sample.addrHash)
        ((CAddrMan.run Sample.addrHash (Sample.homeCalls 0)).serialize [7]) ([7], s') ∧
      s'.check_ = -1 := by
  have hany : ∀ op ∈ Sample.homeCalls 0, op.Keeps .any := fun op _ => op.keeps_any
  obtain ⟨hkept, hcounted⟩ := CAddrMan.Kept.run Sample.addrHash hany
  have hfits : ∀ {nId info},
      (CAddrMan.run Sample.addrHash (Sample.homeCalls 0)).mapInfo.lookup nId = some info →
        info.Fits := by
    intro nId info hl
    have hrecord := CAddrMan.mem_records.mpr hl
    rw [Sample.homeCalls_undated, List.mem_singleton] at hrecord
    obtain ⟨-, rfl⟩ := Prod.mk.inj hrecord
    exact ⟨rfl, rfl, by decide, by decide⟩
  have hkey : ([7] : List UInt8).length ≤ MAX_SIZE := by decide
  refine ⟨_, CAddrMan.serialize_reads hkept hcounted hfits (fun _ => Sample.addrHash) hkey, ?_⟩
  decide

end Triangles
