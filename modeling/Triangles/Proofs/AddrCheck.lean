import Mathlib.Data.List.Perm.Subperm
import Triangles.Proofs.AddrMan

/-! The address manager passes its own consistency check after every run. -/

namespace Triangles

open Outcome Roster

namespace CAddrMan

variable {T : Times} {s : CAddrMan}

/-! The records, in the order of their ids. -/

theorem mem_records {nId : Nat} {info : CAddrInfo} :
    (nId, info) ∈ s.records ↔ s.mapInfo.lookup nId = some info := by
  simp only [records, List.mem_filterMap, List.mem_insertionSort, Option.map_eq_some_iff,
    Prod.mk.injEq]
  constructor
  · rintro ⟨n, -, i, hl, rfl, rfl⟩
    exact hl
  · intro hl
    refine ⟨nId, ?_, info, hl, rfl, rfl⟩
    rw [← AList.mem_keys, ← AList.lookup_isSome, hl]
    rfl

theorem records_ids : (s.records.map Prod.fst).Perm s.mapInfo.keys := by
  have hids : s.records.map Prod.fst = s.mapInfo.keys.insertionSort (· ≤ ·) := by
    rw [records, List.map_filterMap]
    have hall : ∀ n ∈ s.mapInfo.keys.insertionSort (· ≤ ·),
        (((s.mapInfo.lookup n).map fun info => (n, info)).map Prod.fst) = some n := by
      intro n hn
      rw [List.mem_insertionSort, ← AList.mem_keys, ← AList.lookup_isSome] at hn
      obtain ⟨info, hl⟩ := Option.isSome_iff_exists.mp hn
      rw [hl]
      rfl
    rw [List.filterMap_congr hall, List.filterMap_some]
  rw [hids]
  exact List.perm_insertionSort _ _

theorem records_nodup : (s.records.map Prod.fst).Nodup :=
  records_ids.nodup_iff.mpr s.mapInfo.nodupKeys

/-- The random order lists the ids of the records. -/
theorem Listed.random_perm (h : Listed T s) : s.vRandom.Perm (s.records.map Prod.fst) := by
  refine (List.perm_ext_iff_of_nodup h.indexed.nodup records_nodup).mpr fun n => ?_
  rw [h.indexed.mem, place, Option.isSome_map, AList.lookup_isSome, AList.mem_keys,
    records_ids.mem_iff]

/-! The first loop of the check: what it collects. -/

def CheckTables.collect (t : CheckTables) (entry : Nat × CAddrInfo) : CheckTables :=
  if entry.2.fInTried then { t with setTried := t.setTried ++ [entry.1] }
  else { t with mapNew := t.mapNew.insert entry.1 entry.2.nRefCount }

def triedRecords (s : CAddrMan) : List (Nat × CAddrInfo) :=
  s.records.filter fun entry => entry.2.fInTried

def newRecords (s : CAddrMan) : List (Nat × CAddrInfo) :=
  s.records.filter fun entry => !entry.2.fInTried

theorem Kept.checkInfo (h : Kept .checked .still s) (t : CheckTables) {nId : Nat} {info : CAddrInfo}
    (hl : s.mapInfo.lookup nId = some info) :
    s.checkInfo t (nId, info) = .ok (t.collect (nId, info)) := by
  obtain ⟨htry, hsucc, htried⟩ := h.listed.timed hl
  have haddr : s.mapAddr.lookup info.toCNetAddr = some nId := by
    rw [h.listed.named, netAddr, hl, Option.map_some]
  have hrandom : s.vRandom[info.nRandomPos]? = some nId := by
    rw [h.listed.indexed, place, hl, Option.map_some]
  have hseat : s.seat nId = some (info.fInTried, info.nRefCount) := by
    rw [seat, hl, Option.map_some, CAddrInfo.seat]
  unfold CAddrMan.checkInfo CheckTables.collect
  cases hf : info.fInTried with
  | true =>
    rw [hf] at hseat
    have hr := (h.tables.seated_tried hseat).1
    simp [hf, check, hr, htried hf, haddr, hrandom, htry, hsucc, bind, Except.bind, pure,
      Except.pure]
  | false =>
    rw [hf] at hseat
    obtain ⟨-, -, hle, -, hge⟩ := h.tables.seated_new hseat
    have hge := hge (Motion.still_ne_joining nId)
    have hrange : 0 ≤ info.nRefCount ∧ info.nRefCount ≤ ADDRMAN_NEW_BUCKETS_PER_ADDRESS :=
      ⟨by omega, hle⟩
    have hr : info.nRefCount ≠ 0 := by omega
    simp [hf, check, hrange, hr, haddr, hrandom, htry, hsucc, bind, Except.bind, pure,
      Except.pure]

theorem Kept.foldlM_checkInfo (h : Kept .checked .still s) (l : List (Nat × CAddrInfo))
    (hl : ∀ entry ∈ l, entry ∈ s.records) (t : CheckTables) :
    l.foldlM s.checkInfo t = .ok (l.foldl CheckTables.collect t) := by
  induction l generalizing t with
  | nil => rfl
  | cons entry l ih =>
    have he := h.checkInfo t (mem_records.mp (hl entry List.mem_cons_self))
    rw [List.foldlM_cons, he]
    exact ih (fun e he => hl e (List.mem_cons_of_mem _ he)) _

theorem foldl_collect (l : List (Nat × CAddrInfo)) (t : CheckTables) :
    (l.foldl CheckTables.collect t).setTried =
        t.setTried ++ (l.filter fun entry => entry.2.fInTried).map Prod.fst ∧
      (l.foldl CheckTables.collect t).mapNew =
        (l.filter fun entry => !entry.2.fInTried).foldl
          (fun m entry => m.insert entry.1 entry.2.nRefCount) t.mapNew := by
  induction l generalizing t with
  | nil => simp
  | cons entry l ih =>
    obtain ⟨ih1, ih2⟩ := ih (t.collect entry)
    rw [List.foldl_cons, ih1, ih2]
    cases hf : entry.2.fInTried with
    | true => simp [CheckTables.collect, hf]
    | false => simp [CheckTables.collect, hf]

/-! The loops over the buckets. -/

/-- Taking the members of the tried buckets out of the tried ids leaves nothing. -/
theorem foldlM_checkTried (l : List Nat) {setTried : List Nat} (h : setTried.Perm l) :
    l.foldlM checkTried setTried = .ok [] := by
  induction l generalizing setTried with
  | nil =>
    rw [List.perm_nil] at h
    rw [h]
    rfl
  | cons n l ih =>
    obtain ⟨hn, herase⟩ := List.cons_perm_iff_perm_erase.mp h.symm
    rw [List.foldlM_cons, checkTried]
    simp only [check, hn, decide_true, if_true]
    exact ih herase.symm

/-- Taking the members of the new buckets out of the counted references leaves nothing. -/
theorem foldlM_checkNew (l : List Nat) {mapNew : AList (fun _ : Nat => Int)}
    (h : ∀ n, mapNew.lookup n = if l.count n = 0 then none else some (l.count n : Int)) :
    ∃ m, l.foldlM checkNew mapNew = .ok m ∧ ∀ n, m.lookup n = none := by
  induction l generalizing mapNew with
  | nil => exact ⟨mapNew, rfl, by simpa using h⟩
  | cons a l ih =>
    have ha := h a
    rw [List.count_cons_self, if_neg (Nat.succ_ne_zero _)] at ha
    rw [List.foldlM_cons, checkNew, ha]
    refine ih fun n => ?_
    have hn := h n
    rw [List.count_cons] at hn
    simp only [Nat.cast_add, Nat.cast_one, add_sub_cancel_right, Nat.cast_eq_zero]
    by_cases hna : n = a
    · subst hna
      split
      · rw [Assoc.lookup_erase_eq, if_pos rfl]
      · rw [Assoc.lookup_insert_eq, if_pos rfl]
    · have hbeq : (a == n) = false := beq_eq_false_iff_ne.mpr (Ne.symm hna)
      rw [hbeq] at hn
      split
      · rw [Assoc.lookup_erase_eq, if_neg hna]
        simpa using hn
      · rw [Assoc.lookup_insert_eq, if_neg hna]
        simpa using hn

/-! The whole check. -/

theorem mem_triedRecords {nId : Nat} :
    nId ∈ s.triedRecords.map Prod.fst ↔ ∃ r, s.seat nId = some (true, r) := by
  simp only [triedRecords, List.mem_map, List.mem_filter, Prod.exists, exists_and_right,
    exists_eq_right, mem_records]
  constructor
  · rintro ⟨info, hl, hf⟩
    exact ⟨info.nRefCount, by rw [seat, hl, Option.map_some, CAddrInfo.seat, hf]⟩
  · rintro ⟨r, hs⟩
    obtain ⟨info, hl, hi⟩ := Option.map_eq_some_iff.mp hs
    exact ⟨info, hl, (Prod.mk.inj hi).1⟩

/-- The tried ids are the members of the tried buckets. -/
theorem Kept.tried_perm (h : Kept T .still s) : (s.triedRecords.map Prod.fst).Perm
    ((List.finRange ADDRMAN_TRIED_BUCKET_COUNT).flatMap s.vvTried) := by
  have hheld : ∀ n, held s.vvTried n ≤ 1 ∧
      (0 < held s.vvTried n ↔ ∃ r, s.seat n = some (true, r)) := by
    intro n
    rcases hs : s.seat n with _ | ⟨_ | _, r⟩
    · simp [(h.tables.seated_none hs).1]
    · simp [(h.tables.seated_new hs).1]
    · simp [(h.tables.seated_tried hs).2.1]
  refine (List.perm_ext_iff_of_nodup ?_ ?_).mpr fun n => ?_
  · exact records_nodup.sublist (List.filter_sublist.map _)
  · rw [List.nodup_iff_count_le_one]
    intro n
    rw [count_flatMap]
    exact (hheld n).1
  · rw [mem_triedRecords, ← List.count_pos_iff, count_flatMap, (hheld n).2]

theorem newRecords_nodup : (s.newRecords.map Prod.fst).Nodup :=
  records_nodup.sublist (List.filter_sublist.map _)

/-- What the first loop counts of an id is how often the new buckets hold it. -/
theorem Kept.mapNew_lookup (h : Kept T .still s) (n : Nat) :
    (s.newRecords.foldl (fun m entry => m.insert entry.1 entry.2.nRefCount)
      (∅ : AList fun _ : Nat => Int)).lookup n =
        if ((List.finRange ADDRMAN_NEW_BUCKET_COUNT).flatMap s.vvNew).count n = 0 then none
        else some (((List.finRange ADDRMAN_NEW_BUCKET_COUNT).flatMap s.vvNew).count n : Int) := by
  have hlook := Assoc.lookup_foldl_insert Prod.fst (fun e : Nat × CAddrInfo => e.2.nRefCount)
    s.newRecords newRecords_nodup ∅ n
  rw [count_flatMap]
  refine Option.ext fun r => ?_
  rw [hlook]
  simp only [newRecords, List.mem_filter, AList.lookup_empty, reduceCtorEq, and_false, or_false]
  rcases hs : s.seat n with _ | ⟨_ | _, q⟩
  · rw [(h.tables.seated_none hs).2, if_pos rfl]
    simp only [reduceCtorEq, iff_false]
    rintro ⟨⟨i, info⟩, ⟨hmem, -⟩, rfl, -⟩
    rw [seat, mem_records.mp hmem] at hs
    cases hs
  · obtain ⟨-, hq, -, -, hge⟩ := h.tables.seated_new hs
    have hge := hge (Motion.still_ne_joining n)
    rw [Motion.owed_still, add_zero] at hq
    rw [if_neg (by omega), ← hq]
    obtain ⟨info, hl, hi⟩ := Option.map_eq_some_iff.mp hs
    obtain ⟨hf, rfl⟩ := Prod.mk.inj hi
    constructor
    · rintro ⟨⟨i, info'⟩, ⟨hmem, -⟩, rfl, rfl⟩
      obtain rfl := Option.some.inj (hl.symm.trans (mem_records.mp hmem))
      rfl
    · intro hr
      exact ⟨(n, info), ⟨mem_records.mpr hl, by simp [hf]⟩, rfl, Option.some.inj hr⟩
  · rw [(h.tables.seated_tried hs).2.2, if_pos rfl]
    simp only [reduceCtorEq, iff_false]
    rintro ⟨⟨i, info⟩, ⟨hmem, hnew⟩, rfl, -⟩
    rw [seat, mem_records.mp hmem, Option.map_some, CAddrInfo.seat] at hs
    simp [(Prod.mk.inj (Option.some.inj hs)).1] at hnew

/-- The entries of the counted references are as many as the new records. -/
theorem foldl_insert_length (l : List (Nat × CAddrInfo)) (hl : (l.map Prod.fst).Nodup)
    (m : AList fun _ : Nat => Int) (hm : ∀ e ∈ l, e.1 ∉ m) :
    (l.foldl (fun m entry => m.insert entry.1 entry.2.nRefCount) m).entries.length =
      m.entries.length + l.length := by
  induction l generalizing m with
  | nil => rfl
  | cons e l ih =>
    rw [List.map_cons, List.nodup_cons] at hl
    have he := hm e List.mem_cons_self
    rw [List.foldl_cons, ih hl.2, AList.entries_insert_of_notMem he, List.length_cons,
      List.length_cons, Nat.add_right_comm, Nat.add_assoc]
    intro d hd hmem
    rw [AList.mem_insert] at hmem
    rcases hmem with heq | hmem
    · exact hl.1 (heq ▸ List.mem_map_of_mem hd)
    · exact hm d (List.mem_cons_of_mem _ hd) hmem

theorem records_split : s.triedRecords.length + s.newRecords.length = s.records.length := by
  rw [triedRecords, newRecords, ← List.countP_eq_length_filter, ← List.countP_eq_length_filter,
    List.length_eq_countP_add_countP (fun entry : Nat × CAddrInfo => entry.2.fInTried)]
  simp

/-- The counters say how many records are tried and how many are not. -/
theorem Kept.counters (h : Kept T .still s) (hc : Counted s) :
    s.nTried = s.triedRecords.length ∧ s.nNew = s.newRecords.length := by
  have htried : s.nTried = s.triedRecords.length := by
    have hp := h.tried_perm.length_eq
    rw [List.length_map, length_flatMap] at hp
    rw [hp]
    exact h.tables.tried_count
  have hlen := h.listed.random_perm.length_eq
  rw [List.length_map, ← records_split] at hlen
  refine ⟨htried, ?_⟩
  unfold Counted at hc
  omega

theorem Kept.check_eq_zero (h : Kept .checked .still s) (hc : Counted s) : s.check_ = 0 := by
  obtain ⟨htried, hnew⟩ := h.counters hc
  obtain ⟨hset, hmap⟩ := foldl_collect s.records {}
  rw [List.nil_append] at hset
  have hloop := h.foldlM_checkInfo s.records (fun _ he => he) {}
  have hlen1 : (s.records.foldl CheckTables.collect {}).setTried.length = s.triedRecords.length := by
    rw [hset, List.length_map, triedRecords]
  have hlen2 : (s.records.foldl CheckTables.collect {}).mapNew.entries.length =
      s.newRecords.length := by
    rw [hmap]
    refine (foldl_insert_length _ newRecords_nodup _ ?_).trans (Nat.zero_add _)
    simp
  have hbuckets := foldlM_checkTried _ h.tried_perm
  obtain ⟨m, hm, hempty⟩ := foldlM_checkNew _ h.mapNew_lookup
  have hnone : m.entries.length = 0 := by
    rw [List.length_eq_zero_iff, List.eq_nil_iff_forall_not_mem]
    intro e he
    have hl := AList.mem_lookup_iff.mpr he
    rw [hempty] at hl
    cases hl
  have hall : s.checkAll = .ok () := by
    simp only [checkAll, bind_ok, check_ok, decide_eq_true_eq]
    refine ⟨(), hc, _, hloop, (), ?_, (), ?_, [], ?_, m, ?_, (), rfl, hnone⟩
    · rw [hlen1, htried]
    · rw [hlen2, hnew]
    · rw [hset]
      exact hbuckets
    · rw [hmap]
      exact hm
  rw [check_, hall]

/-- The tables of the manager agree with one another. -/
structure Consistent (s : CAddrMan) : Prop where
  vRandom : ∀ i nId, s.vRandom[i]? = some nId ↔
    ∃ info, s.mapInfo.lookup nId = some info ∧ info.nRandomPos = i
  mapAddr : ∀ addr nId, s.mapAddr.lookup addr = some nId ↔
    ∃ info, s.mapInfo.lookup nId = some info ∧ info.toCNetAddr = addr
  new : ∀ {nId info}, s.mapInfo.lookup nId = some info → info.fInTried = false →
    info.nRefCount = (s.bucketsOf nId).length ∧ 1 ≤ info.nRefCount ∧ info.nRefCount ≤ 4 ∧
      ∀ k, nId ∉ s.vvTried k
  tried : ∀ {nId info}, s.mapInfo.lookup nId = some info → info.fInTried = true →
    (∃! k, nId ∈ s.vvTried k) ∧ (∀ k, (s.vvTried k).count nId ≤ 1) ∧ ∀ b, nId ∉ s.vvNew b
  members : ∀ nId, ((∃ k, nId ∈ s.vvTried k) ∨ ∃ b, nId ∈ s.vvNew b) →
    (s.mapInfo.lookup nId).isSome
  nTried : s.nTried = (s.records.filter fun entry => entry.2.fInTried).length
  nNew : s.nNew = (s.records.filter fun entry => !entry.2.fInTried).length
  new_small : ∀ b, (s.vvNew b).Nodup ∧ (s.vvNew b).length ≤ 64
  tried_small : ∀ k, (s.vvTried k).length ≤ 64

theorem Kept.consistent (h : Kept T .still s) (hc : Counted s) : Consistent s where
  vRandom := by
    intro i nId
    rw [h.listed.indexed, place, Option.map_eq_some_iff]
  mapAddr := by
    intro addr nId
    rw [h.listed.named, netAddr, Option.map_eq_some_iff]
  new := by
    intro nId info hl hf
    have hs : s.seat nId = some (false, info.nRefCount) := by
      rw [seat, hl, Option.map_some, CAddrInfo.seat, hf]
    obtain ⟨ht, hr, hle, -, hge⟩ := h.tables.seated_new hs
    rw [bucketsOf, length_filter_mem h.tables.nodup]
    rw [Motion.owed_still, add_zero] at hr
    exact ⟨hr, hge (Motion.still_ne_joining nId), hle, held_eq_zero.mp ht⟩
  tried := by
    intro nId info hl hf
    have hs : s.seat nId = some (true, info.nRefCount) := by
      rw [seat, hl, Option.map_some, CAddrInfo.seat, hf]
    obtain ⟨-, ht, hn⟩ := h.tables.seated_tried hs
    obtain ⟨hone, hcount⟩ := unique_of_held ht
    exact ⟨hone, hcount, held_eq_zero.mp hn⟩
  members := by
    intro nId hm
    have hseat : (s.seat nId).isSome := by
      rcases hm with ⟨k, hk⟩ | ⟨b, hb⟩
      · rw [h.tables.seat_of_tried hk]
        rfl
      · obtain ⟨r, hr⟩ := h.tables.seat_of_new hb
        rw [hr]
        rfl
    rwa [seat, Option.isSome_map] at hseat
  nTried := (h.counters hc).1
  nNew := (h.counters hc).2
  new_small := fun b => ⟨h.tables.nodup b, h.tables.new_small b⟩
  tried_small := h.tables.tried_small

end CAddrMan

/-- After any calls, with whatever chance brings, the check of the manager finds nothing and its
tables agree, provided the times of success are positive and those of trying not negative. -/
theorem addrMan_consistent (H : AddrHash) (ops : List AddrOp) (ht : ∀ op ∈ ops, op.Timely) :
    (CAddrMan.run H ops).check_ = 0 ∧ (CAddrMan.run H ops).Consistent := by
  obtain ⟨hk, hc⟩ := CAddrMan.Kept.run H fun op hop => (ht op hop).keeps
  exact ⟨hk.check_eq_zero hc, hk.consistent hc⟩

namespace Sample

def addrHash : AddrHash where
  newHash a _ := (a.ip.headD 0).toNat
  triedHash a := (a.ip.headD 0).toNat
  isRoutable _ := true

def chance : Chance := { draw := fun _ => 0, accept := fun _ => true, nNow := 1600000000 }

def node : CAddress := { ip := [10, 0, 0, 1], port := 24112, nTime := 1600000000 }

def addCalls : List AddrOp :=
  [.add chance node { ip := [10, 0, 0, 2] } 0, .connected node.toCService 1600003000,
    .good chance node.toCService 1600003600, .attempt node.toCService 1600007200,
    .getAddr chance, .select chance]

end Sample

theorem addrMan_consistent_calls :
    (CAddrMan.run Sample.addrHash Sample.addCalls).check_ = 0 ∧
      (CAddrMan.run Sample.addrHash Sample.addCalls).Consistent := by
  refine addrMan_consistent Sample.addrHash Sample.addCalls ?_
  intro op hop
  simp only [Sample.addCalls, List.mem_cons, List.not_mem_nil, or_false] at hop
  rcases hop with rfl | rfl | rfl | rfl | rfl | rfl
  all_goals simp [AddrOp.Timely]

/-- The time of trying is stored as it comes: a negative one is what the check then reports. -/
theorem attempt_negative_found :
    (CAddrMan.run Sample.addrHash
      [.add Sample.chance Sample.node { ip := [10, 0, 0, 2] } 0,
        .attempt Sample.node.toCService (-1)]).check_ = -6 := by
  decide

end Triangles
