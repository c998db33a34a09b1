import Triangles.Lib.Assoc
import Triangles.Model.AddrFile
import Triangles.Proofs.AddrMan

/-! What the loops that read the address manager make of the entries and of the numbers in the new
buckets. -/

namespace Triangles

namespace CAddrMan

/-! The entries. -/

/-- The manager after some entries, of which the first `nNew` are new. -/
structure Filled (H : AddrHash) (nNew : Nat) (entries : List CAddrInfo) (s : CAddrMan) : Prop where
  lookup : ∀ n, s.mapInfo.lookup n = (entries[n]?).map fun info =>
    { info with nRandomPos := n, fInTried := decide (nNew ≤ n) }
  mapAddr : ∀ a n, s.mapAddr.lookup a = some n ↔
    (entries[n]?).map (fun info => info.toCNetAddr) = some a
  vRandom : s.vRandom = List.range entries.length
  vvTried : ∀ k, s.vvTried k = (List.range entries.length).filter fun n =>
    decide (nNew ≤ n ∧ (entries[n]?).map (·.getTriedBucket H) = some k)
  length : ∀ k, (s.vvTried k).length =
    (entries.drop nNew).countP fun info => info.getTriedBucket H = k
  vvNew : s.vvNew = fun _ => []

variable {H : AddrHash} {nNew : Nat} {entries : List CAddrInfo} {s s' : CAddrMan}

theorem getElem?_concat {α : Type} (l : List α) (a : α) (n : Nat) :
    (l ++ [a])[n]? = if n = l.length then some a else l[n]? := by
  rw [List.getElem?_append]
  split_ifs with hlt heq heq
  · omega
  · rfl
  · rw [heq, Nat.sub_self]
    rfl
  · rw [List.getElem?_eq_none (by rw [List.length_singleton]; omega),
      List.getElem?_eq_none (by omega)]

theorem Filled.push (h : Filled H nNew entries s) {info : CAddrInfo}
    (hfresh : ∀ i ∈ entries, i.toCNetAddr ≠ info.toCNetAddr)
    (hinfo : s'.mapInfo = s.mapInfo.insert entries.length
      { info with nRandomPos := entries.length, fInTried := decide (nNew ≤ entries.length) })
    (haddr : s'.mapAddr = s.mapAddr.insert info.toCNetAddr entries.length)
    (hrandom : s'.vRandom = s.vRandom ++ [entries.length])
    (htried : ∀ k, s'.vvTried k = s.vvTried k ++
      if nNew ≤ entries.length ∧ info.getTriedBucket H = k then [entries.length] else [])
    (hnew : s'.vvNew = s.vvNew) : Filled H nNew (entries ++ [info]) s' where
  lookup n := by
    rw [hinfo, Assoc.lookup_insert_eq, getElem?_concat]
    split_ifs with hn
    · rw [hn]
      rfl
    · exact h.lookup n
  mapAddr a n := by
    rw [haddr, Assoc.lookup_insert_eq, getElem?_concat]
    by_cases ha : a = info.toCNetAddr
    · rw [if_pos ha, ha, Option.some.injEq]
      by_cases hn : n = entries.length
      · rw [if_pos hn, hn]
        exact iff_of_true rfl rfl
      · rw [if_neg hn]
        refine iff_of_false (Ne.symm hn) ?_
        rintro hsome
        obtain ⟨i, hi, hia⟩ := Option.map_eq_some_iff.mp hsome
        exact hfresh i (List.mem_of_getElem? hi) hia
    · rw [if_neg ha, h.mapAddr]
      by_cases hn : n = entries.length
      · rw [if_pos hn, hn, List.getElem?_eq_none (le_refl _)]
        exact iff_of_false (by simp) fun hsome => ha (Option.some.inj hsome).symm
      · rw [if_neg hn]
  vRandom := by
    rw [hrandom, h.vRandom, List.length_append, List.length_singleton, List.range_succ]
  vvTried k := by
    rw [htried, h.vvTried, List.length_append, List.length_singleton, List.range_succ,
      List.filter_append]
    congr 1
    · refine List.filter_congr fun n hn => ?_
      rw [getElem?_concat, if_neg (List.mem_range.mp hn).ne]
    · rw [List.filter_singleton, getElem?_concat, if_pos rfl]
      have hsame : nNew ≤ entries.length ∧ (some info).map (·.getTriedBucket H) = some k ↔
          nNew ≤ entries.length ∧ info.getTriedBucket H = k := by
        rw [Option.map_some, Option.some.injEq]
      by_cases hk : nNew ≤ entries.length ∧ info.getTriedBucket H = k
      · rw [if_pos hk, decide_eq_true (hsame.mpr hk)]
        rfl
      · rw [if_neg hk, decide_eq_false fun h' => hk (hsame.mp h')]
        rfl
  length k := by
    rw [htried, List.length_append, h.length]
    by_cases hn : nNew ≤ entries.length
    · rw [List.drop_append_of_le_length hn, List.countP_append, List.countP_singleton]
      by_cases hk : info.getTriedBucket H = k
      · simp [hn, hk]
      · simp [hk]
    · have hdrop : (entries ++ [info]).drop nNew = [] := List.drop_eq_nil_of_le (by
        rw [List.length_append, List.length_singleton]
        omega)
      rw [hdrop, List.drop_eq_nil_of_le (by omega), if_neg fun hk => hn hk.1]
      rfl
  vvNew := hnew.trans h.vvNew

theorem Filled.foldl_takeNew {acc : CAddrMan × Nat} (h : Filled H nNew entries acc.1)
    (hn : acc.2 = entries.length) {l : List CAddrInfo}
    (hfresh : ((entries ++ l).map fun info => info.toCNetAddr).Nodup)
    (hnew : ∀ info ∈ l, info.fInTried = false) (hlen : entries.length + l.length ≤ nNew) :
    Filled H nNew (entries ++ l)
        (l.foldl (takeNew H ADDRMAN_NEW_BUCKET_COUNT) acc).1 ∧
      (l.foldl (takeNew H ADDRMAN_NEW_BUCKET_COUNT) acc).1.nNew = acc.1.nNew ∧
      (l.foldl (takeNew H ADDRMAN_NEW_BUCKET_COUNT) acc).1.nTried = acc.1.nTried := by
  induction l generalizing entries acc with
  | nil =>
    rw [List.append_nil]
    exact ⟨h, rfl, rfl⟩
  | cons info l ih =>
    obtain ⟨s, n⟩ := acc
    dsimp only at hn
    subst hn
    obtain ⟨hinfo, hl⟩ := List.forall_mem_cons.mp hnew
    rw [List.length_cons] at hlen
    have happend : entries ++ info :: l = (entries ++ [info]) ++ l := by simp
    rw [happend] at hfresh ⊢
    have hother : ∀ i ∈ entries, i.toCNetAddr ≠ info.toCNetAddr := by
      intro i hi
      rw [List.append_assoc, List.map_append] at hfresh
      exact (List.nodup_append.mp hfresh).2.2 _ (List.mem_map_of_mem hi) _ (by simp)
    have hpush : Filled H nNew (entries ++ [info])
        (takeNew H ADDRMAN_NEW_BUCKET_COUNT (s, entries.length) info).1 := by
      have hlow : ¬ nNew ≤ entries.length := by omega
      refine h.push hother ?_ rfl rfl (fun k => ?_) rfl
      · have hplace : s.vRandom.length = entries.length := by rw [h.vRandom, List.length_range]
        change s.mapInfo.insert _ { info with nRandomPos := s.vRandom.length } = _
        rw [hplace, decide_eq_false hlow, ← hinfo]
      · rw [if_neg fun hk => hlow hk.1]
        exact (List.append_nil _).symm
    have hnext : (takeNew H ADDRMAN_NEW_BUCKET_COUNT (s, entries.length) info).2 =
        (entries ++ [info]).length := by
      rw [List.length_append]
      rfl
    exact ih hpush hnext hfresh hl (by rw [List.length_append, List.length_singleton]; omega)

/-- The loop over the tried entries loses none when their buckets have room. -/
theorem Filled.foldl_takeTried {acc : CAddrMan × Nat} (h : Filled H nNew entries acc.1)
    (hn : acc.1.nIdCount = entries.length) {l : List CAddrInfo}
    (hfresh : ((entries ++ l).map fun info => info.toCNetAddr).Nodup)
    (hnew : nNew ≤ entries.length)
    (hroom : ∀ k, ((entries ++ l).drop nNew).countP (fun info => info.getTriedBucket H = k) ≤
      ADDRMAN_TRIED_BUCKET_SIZE) :
    Filled H nNew (entries ++ l) (l.foldl (takeTried H) acc).1 ∧
      (l.foldl (takeTried H) acc).1.nNew = acc.1.nNew ∧
      (l.foldl (takeTried H) acc).1.nTried = acc.1.nTried ∧
      (l.foldl (takeTried H) acc).1.nIdCount = (entries ++ l).length ∧
      (l.foldl (takeTried H) acc).2 = acc.2 := by
  induction l generalizing entries acc with
  | nil =>
    rw [List.append_nil]
    exact ⟨h, rfl, rfl, hn, rfl⟩
  | cons info l ih =>
    obtain ⟨s, nLost⟩ := acc
    dsimp only at hn h
    have happend : entries ++ info :: l = (entries ++ [info]) ++ l := by simp
    rw [happend] at hfresh hroom ⊢
    have hother : ∀ i ∈ entries, i.toCNetAddr ≠ info.toCNetAddr := by
      intro i hi
      rw [List.append_assoc, List.map_append] at hfresh
      exact (List.nodup_append.mp hfresh).2.2 _ (List.mem_map_of_mem hi) _ (by simp)
    have hfree : (s.vvTried (info.getTriedBucket H)).length < ADDRMAN_TRIED_BUCKET_SIZE := by
      have hall := hroom (info.getTriedBucket H)
      rw [List.append_assoc, List.drop_append_of_le_length hnew, List.countP_append,
        List.singleton_append, List.countP_cons_of_pos (by simp), ← h.length] at hall
      omega
    have hplace : s.vRandom.length = entries.length := by rw [h.vRandom, List.length_range]
    let s1 : CAddrMan := { s with
      vRandom := s.vRandom ++ [entries.length]
      mapInfo := s.mapInfo.insert entries.length
        { info with nRandomPos := entries.length, fInTried := true }
      mapAddr := s.mapAddr.insert info.toCNetAddr entries.length
      vvTried := Function.update s.vvTried (info.getTriedBucket H)
        (s.vvTried (info.getTriedBucket H) ++ [entries.length])
      nIdCount := entries.length + 1 }
    have htake : takeTried H (s, nLost) info = (s1, nLost) := by
      dsimp only [takeTried, s1]
      rw [if_pos hfree, hn, hplace]
    have hpush : Filled H nNew (entries ++ [info]) s1 := by
      refine h.push hother ?_ rfl rfl (fun k => ?_) rfl
      · rw [decide_eq_true hnew]
      · change Function.update s.vvTried _ _ k = _
        by_cases hk : k = info.getTriedBucket H
        · rw [hk, Function.update_self, if_pos ⟨hnew, rfl⟩]
        · rw [Function.update_of_ne hk, if_neg fun h' => hk h'.2.symm, List.append_nil]
    have hnext : s1.nIdCount = (entries ++ [info]).length := by
      rw [List.length_append]
      rfl
    rw [List.foldl_cons, htake]
    have hnew' : nNew ≤ (entries ++ [info]).length := by
      rw [List.length_append]
      omega
    exact ih hpush hnext hfresh hnew' hroom

/-! The numbers in the new buckets. -/

/-- The manager after some references, on top of records without any. -/
structure Refed (base : CAddrMan) (ps : List (Fin ADDRMAN_NEW_BUCKET_COUNT × Nat))
    (s : CAddrMan) : Prop where
  eq : s = { base with mapInfo := s.mapInfo, vvNew := s.vvNew }
  lookup : ∀ n, s.mapInfo.lookup n = (base.mapInfo.lookup n).map fun info =>
    { info with nRefCount := ((ps.map Prod.snd).count n : Int) }
  vvNew : ∀ b, (s.vvNew b).Perm ((ps.filter (·.1 = b)).map Prod.snd)

variable {base : CAddrMan} {ps : List (Fin ADDRMAN_NEW_BUCKET_COUNT × Nat)}
  {b : Fin ADDRMAN_NEW_BUCKET_COUNT} {n : Nat}

/-- One more reference, which the bucket does not have yet. -/
theorem Refed.takeIndex (h : Refed base ps s) (hrecord : (base.mapInfo.lookup n).isSome)
    (hfresh : (b, n) ∉ ps) (hfew : (ps.map Prod.snd).count n < 4) :
    Refed base (ps ++ [(b, n)]) (takeIndex ADDRMAN_NEW_BUCKET_COUNT b s n) := by
  obtain ⟨info, hinfo⟩ := Option.isSome_iff_exists.mp hrecord
  have hlook := h.lookup n
  rw [hinfo, Option.map_some] at hlook
  have hmem : n ∈ s.mapInfo := by
    rw [← AList.lookup_isSome, hlook]
    rfl
  have hout : n ∉ s.vvNew b := by
    rw [(h.vvNew b).mem_iff, List.mem_map]
    rintro ⟨⟨b', n'⟩, hp, hn⟩
    obtain ⟨hps, hb⟩ := List.mem_filter.mp hp
    obtain rfl : b' = b := of_decide_eq_true hb
    obtain rfl : n' = n := hn
    exact hfresh hps
  let counted := s.modifyInfo n fun info => { info with nRefCount := info.nRefCount + 1 }
  have htake : CAddrMan.takeIndex ADDRMAN_NEW_BUCKET_COUNT b s n = counted.insertNew b n := by
    have hroom : (ADDRMAN_NEW_BUCKET_COUNT : Int) = ADDRMAN_NEW_BUCKET_COUNT ∧
        (((ps.map Prod.snd).count n : Nat) : Int) < ADDRMAN_NEW_BUCKETS_PER_ADDRESS :=
      ⟨rfl, by rw [ADDRMAN_NEW_BUCKETS_PER_ADDRESS]; omega⟩
    dsimp only [CAddrMan.takeIndex]
    rw [if_pos hmem, dif_pos b.isLt, hlook, Option.getD_some, if_pos hroom]
  have hout' : n ∉ counted.vvNew b := by
    rw [modifyInfo_vvNew]
    exact hout
  rw [htake, insertNew, if_neg hout']
  have hcount : ∀ m, ((ps ++ [(b, n)]).map Prod.snd).count m =
      (ps.map Prod.snd).count m + if m = n then 1 else 0 := by
    intro m
    rw [List.map_append, List.count_append]
    congr 1
    rw [List.map_singleton, List.count_singleton]
    by_cases hm : m = n
    · rw [if_pos hm, if_pos (beq_iff_eq.mpr hm.symm)]
    · rw [if_neg hm, if_neg fun h' => hm (beq_iff_eq.mp h').symm]
  refine ⟨?_, fun m => ?_, fun b' => ?_⟩
  · have heq : counted = { s with mapInfo := counted.mapInfo } := modifyInfo_eq s n _
    rw [heq]
    dsimp only
    conv_lhs => rw [h.eq]
  · change counted.mapInfo.lookup m = _
    rw [lookup_modifyInfo, hcount]
    split_ifs with hm
    · rw [hm, hlook, hinfo]
      simp only [Option.map_some, Nat.cast_add, Nat.cast_one]
    · rw [h.lookup m, Nat.add_zero]
  · change (Function.update counted.vvNew b _ b').Perm _
    rw [modifyInfo_vvNew, List.filter_append, List.map_append]
    by_cases hb : b' = b
    · subst hb
      rw [Function.update_self, List.filter_singleton, decide_eq_true rfl]
      refine (List.perm_orderedInsert _ _ _).trans ?_
      refine ((h.vvNew b').cons n).trans ?_
      exact (List.perm_append_singleton n _).symm
    · have hother : decide (((b, n) : Fin ADDRMAN_NEW_BUCKET_COUNT × Nat).1 = b') = false :=
        decide_eq_false fun h' => hb h'.symm
      rw [Function.update_of_ne hb, List.filter_singleton, hother]
      exact (List.append_nil _).symm ▸ h.vvNew b'

theorem Refed.foldl_takeIndex (h : Refed base ps s) {l : List Nat}
    (hrecord : ∀ n ∈ l, (base.mapInfo.lookup n).isSome)
    (hnodup : (ps ++ l.map fun n => (b, n)).Nodup)
    (hfew : ∀ n, ((ps ++ l.map fun n => (b, n)).map Prod.snd).count n ≤ 4) :
    Refed base (ps ++ l.map fun n => (b, n))
      (l.foldl (CAddrMan.takeIndex ADDRMAN_NEW_BUCKET_COUNT b) s) := by
  induction l generalizing ps s with
  | nil =>
    rw [List.map_nil, List.append_nil]
    exact h
  | cons n l ih =>
    obtain ⟨hn, hl⟩ := List.forall_mem_cons.mp hrecord
    have happend : ps ++ (n :: l).map (fun n => (b, n)) =
        (ps ++ [(b, n)]) ++ l.map fun n => (b, n) := by simp
    rw [happend] at hnodup hfew ⊢
    have hfresh : (b, n) ∉ ps := by
      rw [List.append_assoc] at hnodup
      exact fun hmem => (List.nodup_append.mp hnodup).2.2 _ hmem _ (by simp) rfl
    have hless : (ps.map Prod.snd).count n < 4 := by
      have hall := hfew n
      rw [List.map_append, List.map_append, List.count_append, List.count_append] at hall
      have hone : ([((b, n) : Fin ADDRMAN_NEW_BUCKET_COUNT × Nat)].map Prod.snd).count n = 1 := by
        simp
      omega
    exact ih (h.takeIndex hn hfresh hless) hl hnodup hfew

def refsOf (number : Fin ADDRMAN_NEW_BUCKET_COUNT → List Nat)
    (bs : List (Fin ADDRMAN_NEW_BUCKET_COUNT)) : List (Fin ADDRMAN_NEW_BUCKET_COUNT × Nat) :=
  bs.flatMap fun b => (number b).map fun n => (b, n)

def takeBucket (number : Fin ADDRMAN_NEW_BUCKET_COUNT → List Nat) (acc : CAddrMan × Nat)
    (b : Fin ADDRMAN_NEW_BUCKET_COUNT) : CAddrMan × Nat :=
  ((number b).foldl (CAddrMan.takeIndex ADDRMAN_NEW_BUCKET_COUNT acc.2) acc.1, acc.2 + 1)

theorem Refed.foldl_takeBucket {number : Fin ADDRMAN_NEW_BUCKET_COUNT → List Nat}
    {acc : CAddrMan × Nat} (h : Refed base ps acc.1)
    {bs : List (Fin ADDRMAN_NEW_BUCKET_COUNT)} (hbs : bs.map Fin.val = List.range' acc.2 bs.length)
    (hrecord : ∀ b ∈ bs, ∀ n ∈ number b, (base.mapInfo.lookup n).isSome)
    (hnodup : (ps ++ refsOf number bs).Nodup)
    (hfew : ∀ n, ((ps ++ refsOf number bs).map Prod.snd).count n ≤ 4) :
    Refed base (ps ++ refsOf number bs) (bs.foldl (takeBucket number) acc).1 := by
  induction bs generalizing ps acc with
  | nil =>
    rw [refsOf, List.flatMap_nil, List.append_nil]
    exact h
  | cons b bs ih =>
    obtain ⟨s, c⟩ := acc
    rw [List.map_cons, List.length_cons, List.range'_succ, List.cons.injEq] at hbs
    obtain ⟨rfl, hrest⟩ := hbs
    obtain ⟨hb, hbs⟩ := List.forall_mem_cons.mp hrecord
    have happend : ps ++ refsOf number (b :: bs) =
        (ps ++ (number b).map fun n => (b, n)) ++ refsOf number bs := by
      rw [refsOf, List.flatMap_cons, ← List.append_assoc]
      rfl
    rw [happend] at hnodup hfew ⊢
    have hone : Refed base (ps ++ (number b).map fun n => (b, n))
        ((number b).foldl (CAddrMan.takeIndex ADDRMAN_NEW_BUCKET_COUNT b) s) := by
      refine h.foldl_takeIndex hb (List.nodup_append.mp hnodup).1 fun n => ?_
      have hall := hfew n
      rw [List.map_append, List.count_append] at hall
      exact (Nat.le_add_right _ _).trans hall
    exact ih hone hrest hbs hnodup hfew

theorem refsOf_snd (number : Fin ADDRMAN_NEW_BUCKET_COUNT → List Nat)
    (bs : List (Fin ADDRMAN_NEW_BUCKET_COUNT)) :
    (refsOf number bs).map Prod.snd = bs.flatMap number := by
  rw [refsOf, List.map_flatMap]
  refine List.flatMap_congr fun b _ => ?_
  rw [List.map_map]
  exact List.map_id _

/-- The references of one bucket among those of all. -/
theorem refsOf_filter (number : Fin ADDRMAN_NEW_BUCKET_COUNT → List Nat)
    {bs : List (Fin ADDRMAN_NEW_BUCKET_COUNT)} (hbs : bs.Nodup) (b : Fin ADDRMAN_NEW_BUCKET_COUNT) :
    ((refsOf number bs).filter (·.1 = b)).map Prod.snd = if b ∈ bs then number b else [] := by
  induction bs with
  | nil => rfl
  | cons c bs ih =>
    obtain ⟨hc, hbs⟩ := List.nodup_cons.mp hbs
    have hsplit : refsOf number (c :: bs) = (number c).map (fun n => (c, n)) ++ refsOf number bs := rfl
    rw [hsplit, List.filter_append, List.map_append, ih hbs]
    by_cases hb : b = c
    · subst hb
      have hall : ((number b).map fun n => (b, n)).filter (·.1 = b) = (number b).map fun n => (b, n) :=
        List.filter_eq_self.mpr fun p hp => by
          obtain ⟨n, -, rfl⟩ := List.mem_map.mp hp
          exact decide_eq_true rfl
      rw [hall, if_neg hc, if_pos List.mem_cons_self, List.append_nil, List.map_map]
      exact List.map_id _
    · have hnone : ((number c).map fun n => (c, n)).filter (·.1 = b) = [] :=
        List.filter_eq_nil_iff.mpr fun p hp => by
          obtain ⟨n, -, rfl⟩ := List.mem_map.mp hp
          simpa using Ne.symm hb
      have hmem : b ∈ c :: bs ↔ b ∈ bs := List.mem_cons.trans (or_iff_right hb)
      rw [hnone, List.map_nil, List.nil_append]
      simp only [hmem]

theorem refsOf_nodup {number : Fin ADDRMAN_NEW_BUCKET_COUNT → List Nat}
    {bs : List (Fin ADDRMAN_NEW_BUCKET_COUNT)} (hbs : bs.Nodup) (hnumber : ∀ b, (number b).Nodup) :
    (refsOf number bs).Nodup := by
  refine List.nodup_flatMap.mpr ⟨fun b _ => ?_, ?_⟩
  · exact (hnumber b).map fun n m hnm => (Prod.mk.inj hnm).2
  · refine hbs.imp fun {b c} hbc => ?_
    rw [Function.onFun, List.disjoint_left]
    rintro p hp hp'
    obtain ⟨n, -, rfl⟩ := List.mem_map.mp hp
    obtain ⟨m, -, hm⟩ := List.mem_map.mp hp'
    exact hbc (Prod.mk.inj hm).1.symm

end CAddrMan

end Triangles
