import Triangles.Proofs.LevelBlock

/-! The iterator over a block of a table file moves like a cursor over the entries that were put into
it. -/

namespace Triangles.LevelDb

open Cursors

/-! The places of the iterator. -/

section Places

variable {interval q : Nat} {es : List Entry} {it : BlockIter}

/-- The entries lie in a block with `q` restarts after the first. -/
structure Layout (interval q : Nat) (es : List Entry) : Prop where
  pos : 0 < interval
  empty : es = [] → q = 0
  within : ∀ r ≤ q, r * interval < es.length ∨ es = []
  size : offset interval es es.length < 2 ^ 32
  fits : ∀ e ∈ es, e.1.length ≤ offset interval es es.length

structure Over (interval q : Nat) (es : List Entry) (it : BlockIter) : Prop where
  data : ∃ tail, it.data_ = bytesUpTo interval es es.length ++ tail
  restarts : it.restarts_ = offset interval es es.length
  num : it.num_restarts_ = q + 1
  point : ∀ r ≤ q, it.getRestartPoint r = offset interval es (r * interval)
  status : it.status_ = .ok

/-- The restart the iterator keeps in mind is not behind an entry. -/
def Restart (interval q : Nat) (it : BlockIter) (i : Nat) : Prop :=
  it.restart_index_ ≤ q ∧ it.restart_index_ * interval ≤ i

/-- The next entry to be parsed is the one of this place. -/
structure Before (interval q : Nat) (es : List Entry) (it : BlockIter) (i : Nat) : Prop where
  next : it.nextEntryOffset = offset interval es i
  key : i < es.length → sharedAt interval es i ≤ it.key_.length ∧
    it.key_.take (sharedAt interval es i) =
      (es.getD i ([], [])).1.take (sharedAt interval es i)
  restart : i < es.length → Restart interval q it i

structure At (interval q : Nat) (es : List Entry) (it : BlockIter) (i : Nat) : Prop where
  lt : i < es.length
  current : it.current_ = offset interval es i
  key : it.key_ = (es.getD i ([], [])).1
  value : it.value = (es.getD i ([], [])).2
  next : it.nextEntryOffset = offset interval es (i + 1)
  restart : Restart interval q it i

/-- Where the iterator stands. -/
def Stands (interval q : Nat) (es : List Entry) (it : BlockIter) : Option Nat → Prop
  | some i => At interval q es it i
  | none => it.current_ = it.restarts_

theorem offset_le {i j : Nat} (h : i ≤ j) : offset interval es i ≤ offset interval es j := by
  obtain hlt | rfl := Nat.lt_or_eq_of_le h
  · exact (offset_strictMono hlt).le
  · exact Nat.le_refl _

theorem sharedAt_le (i : Nat) : sharedAt interval es i ≤ (es.getD i ([], [])).1.length := by
  rw [sharedAt]
  split_ifs
  · exact Nat.zero_le _
  · exact (sharedLength_le _ _).2.1

theorem Over.rest (h : Over interval q es it) {i : Nat} (hi : i < es.length) :
    ∃ rest tail, it.data_.drop (offset interval es i) = bytesAt interval es i ++ (rest ++ tail) ∧
      (it.data_.take it.restarts_).drop (offset interval es i) = bytesAt interval es i ++ rest ∧
      rest.length = offset interval es es.length - offset interval es (i + 1) := by
  obtain ⟨tail, hdata⟩ := h.data
  obtain ⟨rest, hdrop, hlen⟩ := @bytesUpTo_drop interval _ _ _ hi
  refine ⟨rest, tail, ?_, ?_, hlen⟩
  · rw [hdata, List.drop_append_of_le_length (offset_strictMono hi).le, hdrop, List.append_assoc]
  · have htake := @List.take_left' _ _ tail _ (show (bytesUpTo interval es es.length).length =
      offset interval es es.length from rfl)
    rw [hdata, h.restarts, htake, hdrop]

theorem restartLoop_restart {i : Nat} (h : Over interval q es it)
    (hcurrent : it.current_ = offset interval es i) (rounds : Nat) {index : Nat} (hq : index ≤ q)
    (hi : index * interval ≤ i) :
    it.restartLoop rounds index ≤ q ∧ it.restartLoop rounds index * interval ≤ i := by
  induction rounds generalizing index with
  | zero => exact ⟨hq, hi⟩
  | succ rounds ih =>
    rw [BlockIter.restartLoop]
    split_ifs with hmore
    · obtain ⟨hnum, hpoint⟩ := hmore
      rw [h.num] at hnum
      rw [h.point _ (by omega), hcurrent, offset_lt_iff] at hpoint
      exact ih (by omega) hpoint.le
    · exact ⟨hq, hi⟩

variable (interval es) in
theorem bytesAt_value (i : Nat) : ∃ front, bytesAt interval es i = front ++ (es.getD i ([], [])).2 ∧
    (es.getD i ([], [])).1.length - sharedAt interval es i ≤ front.length := by
  refine ⟨encodeVarint32 (sharedAt interval es i) ++
    (encodeVarint32 ((es.getD i ([], [])).1.length - sharedAt interval es i) ++
      (encodeVarint32 (es.getD i ([], [])).2.length ++
        (es.getD i ([], [])).1.drop (sharedAt interval es i))), ?_, ?_⟩
  · simp [bytesAt, entryBytes]
  · simp only [List.length_append, List.length_drop]
    omega

theorem decodeEntry_at (hl : Layout interval q es) (h : Over interval q es it) {i : Nat}
    (hi : i < es.length) :
    ∃ rest, rest.length = offset interval es es.length - offset interval es (i + 1) ∧
      decodeEntry ((it.data_.take it.restarts_).drop (offset interval es i)) =
        some (sharedAt interval es i, (es.getD i ([], [])).1.length - sharedAt interval es i,
          (es.getD i ([], [])).2.length,
          (es.getD i ([], [])).1.drop (sharedAt interval es i) ++
            ((es.getD i ([], [])).2 ++ rest)) := by
  obtain ⟨rest, -, -, hdrop, hrest⟩ := h.rest hi
  obtain ⟨front, hbytes, hfront⟩ := bytesAt_value interval es i
  have hlast : offset interval es (i + 1) ≤ offset interval es es.length := offset_le hi
  have hsucc := offset_succ interval es i
  have hsize := hl.size
  have hmem : es.getD i ([], []) ∈ es := by
    rw [getD_eq_getElem hi]
    exact List.getElem_mem hi
  have hfits := hl.fits _ hmem
  rw [hbytes, List.length_append] at hsucc
  refine ⟨rest, hrest, ?_⟩
  rw [hdrop]
  exact decodeEntry_bytes rest (sharedAt_le i) (by omega) (by omega)

theorem parseNextKey_entry (hl : Layout interval q es) (h : Over interval q es it) {i : Nat}
    (hi : i < es.length) (hb : Before interval q es it i) :
    it.parseNextKey.1 = true ∧ Over interval q es it.parseNextKey.2 ∧
      At interval q es it.parseNextKey.2 i := by
  obtain ⟨rest, hrest, hdecode⟩ := decodeEntry_at hl h hi
  obtain ⟨front, hbytes, hfront⟩ := bytesAt_value interval es i
  obtain ⟨after, tail, hdata, -, -⟩ := h.rest hi
  obtain ⟨hshared, hkey⟩ := hb.key hi
  obtain ⟨hrq, hri⟩ := hb.restart hi
  have hlast : offset interval es (i + 1) ≤ offset interval es es.length := offset_le hi
  have hsize := hl.size
  have hsucc := offset_succ interval es i
  rw [hbytes, List.length_append] at hsucc
  have hin : ¬ offset interval es i ≥ it.restarts_ := by
    rw [h.restarts]
    exact Nat.not_le.mpr (offset_strictMono hi)
  have hplace : it.restarts_ - ((es.getD i ([], [])).1.drop (sharedAt interval es i) ++
      ((es.getD i ([], [])).2 ++ rest)).length +
        ((es.getD i ([], [])).1.length - sharedAt interval es i) =
      offset interval es i + front.length := by
    rw [h.restarts, List.length_append, List.length_append, List.length_drop]
    omega
  have hnew : it.key_.take (sharedAt interval es i) ++
      ((es.getD i ([], [])).1.drop (sharedAt interval es i) ++ ((es.getD i ([], [])).2 ++ rest)).take
        ((es.getD i ([], [])).1.length - sharedAt interval es i) = (es.getD i ([], [])).1 := by
    rw [hkey, List.take_left' List.length_drop, List.take_append_drop]
  have hvalue : (it.data_.drop (offset interval es i + front.length)).take
      (es.getD i ([], [])).2.length = (es.getD i ([], [])).2 := by
    rw [← List.drop_drop, hdata, hbytes, List.append_assoc, List.drop_left, List.take_left]
  have hparse : it.parseNextKey =
      (true, { it with
        current_ := offset interval es i
        key_ := (es.getD i ([], [])).1
        value_ := (offset interval es i + front.length, (es.getD i ([], [])).2.length)
        restart_index_ := BlockIter.restartLoop { it with
          current_ := offset interval es i
          key_ := (es.getD i ([], [])).1
          value_ := (offset interval es i + front.length, (es.getD i ([], [])).2.length) }
            it.num_restarts_ it.restart_index_ }) := by
    simp only [BlockIter.parseNextKey, hb.next, hin, if_false, hdecode, Nat.not_lt.mpr hshared, hnew,
      hplace]
  rw [hparse]
  refine ⟨rfl, ⟨h.data, h.restarts, h.num, h.point, h.status⟩, hi, rfl, rfl, hvalue, ?_, ?_⟩
  · have hend : offset interval es i + front.length + (es.getD i ([], [])).2.length =
        offset interval es (i + 1) := by omega
    have hfit : uint32_t (offset interval es i + front.length + (es.getD i ([], [])).2.length) =
        offset interval es i + front.length + (es.getD i ([], [])).2.length :=
      uint32_t_eq (by omega)
    exact hfit.trans hend
  · exact @restartLoop_restart _ _ _ ({ it with
      current_ := offset interval es i
      key_ := (es.getD i ([], [])).1
      value_ := (offset interval es i + front.length, (es.getD i ([], [])).2.length) }) _
      ⟨h.data, h.restarts, h.num, h.point, h.status⟩ rfl _ _ hrq hri

theorem parseNextKey_end (h : Over interval q es it) (hb : Before interval q es it es.length) :
    it.parseNextKey.1 = false ∧ Over interval q es it.parseNextKey.2 ∧
      it.parseNextKey.2.current_ = it.parseNextKey.2.restarts_ := by
  have hout : offset interval es es.length ≥ it.restarts_ := h.restarts.le
  have hparse : it.parseNextKey =
      (false, { it with current_ := it.restarts_, restart_index_ := it.num_restarts_ }) := by
    simp only [BlockIter.parseNextKey, hb.next, hout, if_true]
  rw [hparse]
  exact ⟨rfl, ⟨h.data, h.restarts, h.num, h.point, h.status⟩, rfl⟩

theorem At.before {i : Nat} (h : At interval q es it i) : Before interval q es it (i + 1) where
  next := h.next
  key := fun _ => by
    rw [h.key, sharedAt]
    split_ifs
    · simp
    · exact ⟨(sharedLength_le _ _).1, (sharedLength_le _ _).2.2⟩
  restart := fun _ => ⟨h.restart.1, h.restart.2.trans (Nat.le_succ i)⟩

theorem seekToRestartPoint_before (hl : Layout interval q es) (h : Over interval q es it) {r : Nat}
    (hr : r ≤ q) : Over interval q es (it.seekToRestartPoint r) ∧
      Before interval q es (it.seekToRestartPoint r) (r * interval) := by
  have hoffset : offset interval es (r * interval) < 2 ^ 32 := by
    refine lt_of_le_of_lt (offset_le ?_) hl.size
    obtain hlt | hempty := hl.within r hr
    · exact hlt.le
    · have hq := hl.empty hempty
      have hzero : r = 0 := by omega
      simp [hzero]
  refine ⟨⟨h.data, h.restarts, h.num, h.point, h.status⟩, ?_, fun _ => ?_, fun _ => ⟨hr, Nat.le_refl _⟩⟩
  · rw [BlockIter.nextEntryOffset, BlockIter.seekToRestartPoint, h.point r hr, Nat.add_zero]
    exact uint32_t_eq hoffset
  · have hshared : sharedAt interval es (r * interval) = 0 := by
      rw [sharedAt, if_pos (Nat.mul_mod_left r interval)]
    simp [hshared]

end Places

/-! The moves of the iterator. -/

section Moves

variable {interval q : Nat} {es : List Entry} {it : BlockIter}

theorem skipTo_at (hl : Layout interval q es) {j : Nat} (hj : j ≤ es.length) (rounds : Nat) {i : Nat}
    (h : Over interval q es it) (hb : Before interval q es it i) (hij : i < j) (hr : j - i ≤ rounds) :
    Over interval q es (BlockIter.skipTo (offset interval es j) rounds it) ∧
      At interval q es (BlockIter.skipTo (offset interval es j) rounds it) (j - 1) := by
  induction rounds generalizing it i with
  | zero => omega
  | succ rounds ih =>
    obtain ⟨hmore, hover, hat⟩ := parseNextKey_entry hl h (by omega) hb
    simp only [BlockIter.skipTo, hmore, hat.next, offset_lt_iff, true_and]
    by_cases hnext : i + 1 < j
    · rw [if_pos hnext]
      exact ih hover hat.before hnext (by omega)
    · have hlast : j - 1 = i := by omega
      rw [if_neg hnext, hlast]
      exact ⟨hover, hat⟩

theorem prevLoop_some (h : Over interval q es it) {i : Nat} (hi : 0 < i) {index : Nat}
    (hq : index ≤ q) : ∃ r ≤ q, it.prevLoop (offset interval es i) index = some r ∧ r * interval < i := by
  induction index with
  | zero =>
    have hpoint := h.point 0 (Nat.zero_le q)
    have hbefore : ¬ it.getRestartPoint 0 ≥ offset interval es i := by
      rw [hpoint, ge_iff_le, Nat.not_le, offset_lt_iff]
      omega
    exact ⟨0, Nat.zero_le q, by rw [BlockIter.prevLoop, if_neg hbefore], by omega⟩
  | succ index ih =>
    rw [BlockIter.prevLoop]
    split_ifs with hpoint
    · exact ih (by omega)
    · rw [h.point _ hq, ge_iff_le, Nat.not_le, offset_lt_iff] at hpoint
      exact ⟨index + 1, hq, rfl, hpoint⟩

theorem prevLoop_none (h : Over interval q es it) {index : Nat} (hq : index ≤ q) :
    it.prevLoop (offset interval es 0) index = none := by
  induction index with
  | zero =>
    have hpoint := h.point 0 hq
    rw [Nat.zero_mul] at hpoint
    rw [BlockIter.prevLoop, hpoint, if_pos (Nat.le_refl _)]
  | succ index ih =>
    have hpoint : it.getRestartPoint (index + 1) ≥ offset interval es 0 := by
      rw [h.point _ hq]
      exact offset_le (Nat.zero_le _)
    rw [BlockIter.prevLoop, if_pos hpoint]
    exact ih (by omega)

theorem prev_stands (hl : Layout interval q es) (h : Over interval q es it) {i : Nat}
    (hat : At interval q es it i) :
    Over interval q es it.prev ∧ Stands interval q es it.prev (if i = 0 then none else some (i - 1)) := by
  rw [BlockIter.prev, hat.current]
  by_cases hi : i = 0
  · subst hi
    rw [prevLoop_none h hat.restart.1]
    exact ⟨⟨h.data, h.restarts, h.num, h.point, h.status⟩, rfl⟩
  · obtain ⟨r, hr, hloop, hlt⟩ := prevLoop_some h (Nat.pos_of_ne_zero hi) hat.restart.1
    obtain ⟨hover, hbefore⟩ := seekToRestartPoint_before hl h hr
    have hrounds : i - r * interval ≤ it.restarts_ + 1 := by
      have hle := le_offset interval es es.length
      have hin := hat.lt
      rw [h.restarts]
      omega
    simp only [hloop, if_neg hi]
    exact skipTo_at hl hat.lt.le _ hover hbefore hlt hrounds

theorem parseNextKey_stands (hl : Layout interval q es) (h : Over interval q es it) {i : Nat}
    (hi : i ≤ es.length) (hb : Before interval q es it i) :
    Over interval q es it.parseNextKey.2 ∧
      Stands interval q es it.parseNextKey.2 (if i < es.length then some i else none) := by
  obtain hlt | rfl := Nat.lt_or_eq_of_le hi
  · obtain ⟨-, hover, hat⟩ := parseNextKey_entry hl h hlt hb
    rw [if_pos hlt]
    exact ⟨hover, hat⟩
  · obtain ⟨-, hover, hend⟩ := parseNextKey_end h hb
    rw [if_neg (Nat.lt_irrefl _)]
    exact ⟨hover, hend⟩

theorem seekToFirst_stands (hl : Layout interval q es) (h : Over interval q es it) :
    Over interval q es it.seekToFirst ∧
      Stands interval q es it.seekToFirst (if 0 < es.length then some 0 else none) := by
  obtain ⟨hover, hbefore⟩ := seekToRestartPoint_before hl h (Nat.zero_le q)
  rw [Nat.zero_mul] at hbefore
  exact parseNextKey_stands hl hover (Nat.zero_le _) hbefore

theorem seekToLast_stands (hl : Layout interval q es) (h : Over interval q es it) :
    Over interval q es it.seekToLast ∧
      Stands interval q es it.seekToLast
        (if 0 < es.length then some (es.length - 1) else none) := by
  have hindex : it.num_restarts_ - 1 = q := by rw [h.num, Nat.add_sub_cancel]
  obtain ⟨hover, hbefore⟩ := seekToRestartPoint_before hl h (Nat.le_refl q)
  rw [BlockIter.seekToLast, hindex, h.restarts]
  obtain hlt | hempty := hl.within q (Nat.le_refl q)
  · have hle := le_offset interval es es.length
    rw [if_pos (by omega)]
    exact skipTo_at hl (Nat.le_refl _) _ hover hbefore hlt (by omega)
  · have hq := hl.empty hempty
    subst hempty hq
    rw [Nat.zero_mul] at hbefore
    obtain ⟨hmore, hover, hend⟩ := parseNextKey_end hover hbefore
    simp only [BlockIter.skipTo, hmore, Bool.false_eq_true, false_and, if_false]
    exact ⟨hover, hend⟩

/-! `Seek`. -/

variable {compare : List UInt8 → List UInt8 → Ordering}

theorem keyBelow_of_le [Std.TransCmp compare]
    (hsorted : Ascending compare es) {target : List UInt8} {i j : Nat}
    (hij : i ≤ j) (hj : j < es.length) (h : keyBelow compare (es.getD j ([], [])) target = true) :
    keyBelow compare (es.getD i ([], [])) target = true := by
  obtain hlt | rfl := Nat.lt_or_eq_of_le hij
  · have hkeys := List.pairwise_iff_getElem.mp hsorted i j (by omega) hj hlt
    rw [getD_eq_getElem hj] at h
    rw [getD_eq_getElem (by omega : i < es.length)]
    simp only [keyBelow, decide_eq_true_eq] at h ⊢
    exact Std.TransCmp.lt_trans hkeys h
  · exact h

/-- The binary search looks at the entries of the restarts. -/
theorem seekLoop_eq (hl : Layout interval q es) (h : Over interval q es it) (target : List UInt8)
    (rounds : Nat) {left right : Nat} (hright : right ≤ q) :
    it.seekLoop compare target rounds left right =
      some (bisect (fun r => keyBelow compare (es.getD (r * interval) ([], [])) target) rounds left
        right) := by
  induction rounds generalizing left right with
  | zero => rfl
  | succ rounds ih =>
    rw [BlockIter.seekLoop, bisect]
    by_cases hlt : left < right
    · have hmid : (left + right + 1) / 2 ≤ q := by omega
      have hin : (left + right + 1) / 2 * interval < es.length := by
        obtain hin | hempty := hl.within _ hmid
        · exact hin
        · have := hl.empty hempty
          omega
      have hshared : sharedAt interval es ((left + right + 1) / 2 * interval) = 0 := by
        rw [sharedAt, if_pos (Nat.mul_mod_left _ interval)]
      obtain ⟨rest, -, hdecode⟩ := decodeEntry_at hl h hin
      rw [hshared, List.drop_zero, Nat.sub_zero] at hdecode
      rw [if_pos hlt, if_pos hlt]
      simp only [h.point _ hmid, hdecode, ne_eq, not_true_eq_false, if_false, List.take_left, keyBelow,
        decide_eq_true_eq]
      split_ifs
      · exact ih hright
      · exact ih (by omega)
    · rw [if_neg hlt, if_neg hlt]

/-- The linear search stops at the first entry that is not below the key. -/
theorem seekScan_stands (hl : Layout interval q es) {target : List UInt8} (rounds : Nat) {i : Nat}
    (h : Over interval q es it) (hb : Before interval q es it i) (hi : i ≤ es.length)
    (hrounds : es.length - i < rounds)
    (hbelow : ∀ j < i, keyBelow compare (es.getD j ([], [])) target = true) :
    Over interval q es (it.seekScan compare target rounds) ∧
      Stands interval q es (it.seekScan compare target rounds)
        (Cursors.lowerBound (keyBelow compare) es target) := by
  have hbefore : ∀ j < i, ∀ e, es[j]? = some e → keyBelow compare e target = true := by
    intro j hj e he
    rw [← getD_of_getElem? he]
    exact hbelow j hj
  induction rounds generalizing it i with
  | zero => omega
  | succ rounds ih =>
    obtain hlt | rfl := Nat.lt_or_eq_of_le hi
    · obtain ⟨hmore, hover, hat⟩ := parseNextKey_entry hl h hlt hb
      have hget : es[i]? = some (es.getD i ([], [])) := by
        rw [getD_eq_getElem hlt, List.getElem?_eq_getElem hlt]
      simp only [BlockIter.seekScan, hmore, hat.key, Bool.true_eq_false, if_false, ne_eq]
      by_cases hkey : compare (es.getD i ([], [])).1 target = .lt
      · -- still below: the next entry is parsed
        have hbelow' : ∀ j < i + 1, keyBelow compare (es.getD j ([], [])) target = true := by
          intro j hj
          obtain hji | rfl := Nat.lt_or_eq_of_le (Nat.le_of_lt_succ hj)
          · exact hbelow j hji
          · exact decide_eq_true hkey
        rw [if_neg (not_not.mpr hkey)]
        refine ih hover hat.before hlt (by omega) hbelow' fun j hj e he => ?_
        rw [← getD_of_getElem? he]
        exact hbelow' j hj
      · rw [if_pos hkey, lowerBound_some hbefore hget (decide_eq_false hkey)]
        exact ⟨hover, hat⟩
    · obtain ⟨hmore, hover, hend⟩ := parseNextKey_end h hb
      have hall : ∀ e ∈ es, keyBelow compare e target = true := by
        intro e he
        obtain ⟨j, hj⟩ := List.getElem?_of_mem he
        exact hbefore j (List.getElem?_eq_some_iff.mp hj).1 e hj
      simp only [BlockIter.seekScan, hmore, if_true]
      rw [lowerBound_none hall]
      exact ⟨hover, hend⟩

theorem seek_stands [Std.TransCmp compare]
    (hsorted : Ascending compare es) (hl : Layout interval q es)
    (h : Over interval q es it) (target : List UInt8) :
    Over interval q es (it.seek compare target) ∧
      Stands interval q es (it.seek compare target) (Cursors.lowerBound (keyBelow compare) es target) := by
  have hdown : ∀ i j, i ≤ j → j ≤ q →
      keyBelow compare (es.getD (j * interval) ([], [])) target = true →
        keyBelow compare (es.getD (i * interval) ([], [])) target = true := by
    intro i j hij hj hbelow
    have hmul := Nat.mul_le_mul_right interval hij
    obtain hin | hempty := hl.within j hj
    · exact keyBelow_of_le hsorted hmul hin hbelow
    · have := hl.empty hempty
      have hi : i = j := by omega
      rw [hi]
      exact hbelow
  have hindex : it.num_restarts_ - 1 = q := by rw [h.num, Nat.add_sub_cancel]
  obtain ⟨-, hr, hfound, -⟩ := @bisect_spec _ it.num_restarts_ _ _ hdown (Nat.zero_le q)
    (by rw [h.num]; omega)
  rw [BlockIter.seek, hindex, seekLoop_eq hl h target _ (Nat.le_refl q)]
  generalize bisect (fun r => keyBelow compare (es.getD (r * interval) ([], [])) target)
    it.num_restarts_ 0 q = r at hr hfound
  obtain ⟨hover, hbefore⟩ := seekToRestartPoint_before hl h hr
  have hin : r * interval ≤ es.length := by
    obtain hin | hempty := hl.within r hr
    · exact hin.le
    · have hq := hl.empty hempty
      have hzero : r = 0 := by omega
      simp [hzero]
  have hrounds : es.length - r * interval < it.restarts_ + 1 := by
    have hle := le_offset interval es es.length
    rw [h.restarts]
    omega
  refine seekScan_stands hl _ hover hbefore hin hrounds fun j hj => ?_
  obtain rfl | hbelow := hfound
  · omega
  · obtain hlt | hempty := hl.within r hr
    · exact keyBelow_of_le hsorted hj.le hlt hbelow
    · have hq := hl.empty hempty
      have hzero : r = 0 := by omega
      rw [hzero] at hj
      omega

theorem Stands.valid (h : Over interval q es it) {place : Option Nat}
    (hs : Stands interval q es it place) : it.valid = place.isSome := by
  cases place with
  | none =>
    have hend : it.current_ = it.restarts_ := hs
    exact decide_eq_false (by omega)
  | some i =>
    have hin : it.current_ < it.restarts_ := by
      rw [hs.current, h.restarts]
      exact offset_strictMono hs.lt
    exact decide_eq_true hin

theorem move_stands [Std.TransCmp compare]
    (hsorted : Ascending compare es) (hl : Layout interval q es)
    (h : Over interval q es it) {place : Option Nat} (hs : Stands interval q es it place)
    (m : Move (List UInt8)) :
    Over interval q es (it.move compare m) ∧
      Stands interval q es (it.move compare m) (step (keyBelow compare) es place m) := by
  cases m with
  | first => exact seekToFirst_stands hl h
  | last => exact seekToLast_stands hl h
  | seek target => exact seek_stands hsorted hl h target
  | next =>
    have hvalid := hs.valid h
    cases place with
    | none =>
      simp only [BlockIter.move, hvalid, Option.isSome_none, Bool.false_eq_true, if_false]
      exact ⟨h, hs⟩
    | some i =>
      simp only [BlockIter.move, hvalid, Option.isSome_some, if_true]
      exact parseNextKey_stands hl h hs.lt hs.before
  | prev =>
    have hvalid := hs.valid h
    cases place with
    | none =>
      simp only [BlockIter.move, hvalid, Option.isSome_none, Bool.false_eq_true, if_false]
      exact ⟨h, hs⟩
    | some i =>
      simp only [BlockIter.move, hvalid, Option.isSome_some, if_true]
      exact prev_stands hl h hs

theorem Stands.entry (h : Over interval q es it) {place : Option Nat}
    (hs : Stands interval q es it place) : it.entry = place.bind (es[·]?) := by
  rw [BlockIter.entry, hs.valid h]
  cases place with
  | none => rfl
  | some i =>
    rw [hs.key, hs.value, getD_eq_getElem hs.lt, Option.bind_some, List.getElem?_eq_getElem hs.lt]
    rfl

theorem block_follows [Std.TransCmp compare] (hsorted : Ascending compare es)
    (hl : Layout interval q es) :
    Follows (BlockIter.iterator compare) .ok compare es fun it =>
      ∃ place, Over interval q es it ∧ Stands interval q es it place where
  status := fun ⟨_, hover, _⟩ => hover.status
  mem := fun ⟨_, hover, hs⟩ x hx => by
    obtain ⟨i, -, hi⟩ := Option.bind_eq_some_iff.mp ((hs.entry hover).symm.trans hx)
    exact List.mem_of_getElem? hi
  keep := fun ⟨_, hover, hs⟩ m => ⟨_, move_stands hsorted hl hover hs m⟩
  moved := fun {it} ⟨place, hover, hs⟩ m => by
    obtain ⟨hover', hs'⟩ := move_stands hsorted hl hover hs m
    have hin : ∀ i, place = some i → i < es.length := by
      rintro i rfl
      exact hs.lt
    have hmoved := step_moved hsorted hin m
    rw [← hs.entry hover, ← hs'.entry hover'] at hmoved
    exact hmoved

end Moves

/-! Opening the block. -/

section Open

variable {interval : Nat} {es : List Entry}

theorem fixed32_at {l : List Nat} {r v : Nat} (h : l[r]? = some v) (hv : v < 2 ^ 32)
    (front tail : List UInt8) :
    leValue (((front ++ (l.flatMap fixed32Bytes ++ tail)).drop (front.length + r * 4)).take 4) = v := by
  rw [← List.drop_drop, List.drop_left]
  induction l generalizing r with
  | nil => exact absurd h (by simp)
  | cons w l ih =>
    rw [List.flatMap_cons, List.append_assoc]
    cases r with
    | zero =>
      obtain rfl := Option.some.inj h
      rw [Nat.zero_mul, List.drop_zero, List.take_left' (by simp [fixed32Bytes]), fixed32Bytes,
        leValue_wordBytes]
      exact Nat.mod_eq_of_lt hv
    | succ r =>
      rw [Nat.succ_mul, Nat.add_comm, ← List.drop_drop, List.drop_left' (by simp [fixed32Bytes])]
      exact ih h

theorem length_flatMap_fixed32 (l : List Nat) : (l.flatMap fixed32Bytes).length = l.length * 4 := by
  induction l with
  | nil => rfl
  | cons v l ih =>
    have hword : (fixed32Bytes v).length = 4 := by simp [fixed32Bytes]
    rw [List.flatMap_cons, List.length_append, ih, List.length_cons, hword]
    omega

theorem BuiltOf.layout {b : BlockBuilder} {q : Nat} (h : BuiltOf interval es b q) (hpos : 0 < interval)
    (hsize : b.buffer_.length < 2 ^ 32) : Layout interval q es where
  pos := hpos
  empty := fun hempty => by
    have hcount := h.count
    rw [hempty, List.length_nil] at hcount
    have hzero : q * interval = 0 := by omega
    obtain hq | hinterval := Nat.mul_eq_zero.mp hzero
    · exact hq
    · omega
  within := fun r hr => by
    have hmul := Nat.mul_le_mul_right interval hr
    have hcount := h.count
    by_cases hc : b.counter_ = 0
    · exact .inr (h.counter.2 hc)
    · exact .inl (by omega)
  size := by
    rw [h.buffer] at hsize
    exact hsize
  fits := fun e he => by
    have hfits := (h.fits e he).1
    rw [h.buffer] at hfits
    exact hfits

theorem newIterator_over (hpos : 0 < interval)
    (hsize : (buildBlock interval es).finish.length < 2 ^ 32) :
    ∃ q it, Layout interval q es ∧
      (Block.new (buildBlock interval es).finish).newIterator = .ok (some it) ∧
      Over interval q es it ∧ it.current_ = it.restarts_ := by
  have hbuffer : (buildBlock interval es).buffer_.length < 2 ^ 32 := by
    rw [BlockBuilder.finish, List.length_append] at hsize
    omega
  obtain ⟨q, hbuilt⟩ := buildBlock_built hpos hbuffer
  have hl := hbuilt.layout hpos hbuffer
  generalize buildBlock interval es = b at hsize hbuffer hbuilt
  have hcount : b.restarts_.length = q + 1 := by rw [hbuilt.restarts, List.length_map, List.length_range]
  have hfinish : b.finish = b.buffer_ ++
      ((b.restarts_ ++ [uint32_t b.restarts_.length]).flatMap fixed32Bytes ++ []) := by
    simp [BlockBuilder.finish]
  have hlength : b.finish.length = b.buffer_.length + (q + 1) * 4 + 4 := by
    rw [hfinish, List.length_append, List.append_nil, length_flatMap_fixed32, List.length_append, hcount,
      List.length_singleton]
    omega
  have hrestarts : uint32_t b.restarts_.length = q + 1 := by
    rw [hcount]
    exact uint32_t_eq (by omega)
  have hnum : numRestarts b.finish b.finish.length = q + 1 := by
    have hlast : (b.restarts_ ++ [uint32_t b.restarts_.length])[q + 1]? = some (q + 1) := by
      rw [hrestarts, ← hcount, List.getElem?_concat_length]
    have hread := fixed32_at hlast (by omega) b.buffer_ []
    rw [← hfinish] at hread
    rw [numRestarts, hlength, Nat.add_sub_cancel]
    exact hread
  have hoffset : offset interval es es.length = b.buffer_.length := by rw [hbuilt.buffer, offset]
  have hnew : Block.new b.finish = ⟨b.finish, b.finish.length, b.buffer_.length⟩ := by
    have hbig : ¬ b.finish.length < 4 := by omega
    have hallowed : ¬ q + 1 > (b.finish.length - 4) / 4 := by omega
    have hfront : b.finish.length - (1 + (q + 1)) * 4 = b.buffer_.length := by omega
    simp only [Block.new, hbig, if_false, hnum, hallowed, hfront]
  have hiter : (Block.new b.finish).newIterator =
      .ok (some { data_ := b.finish, restarts_ := b.buffer_.length, num_restarts_ := q + 1,
                  current_ := b.buffer_.length, restart_index_ := q + 1 }) := by
    have hbig : ¬ b.finish.length < 4 := by omega
    simp only [hnew, Block.newIterator, hbig, if_false, hnum, Nat.succ_ne_zero]
  have hdata : b.finish = bytesUpTo interval es es.length ++
      ((b.restarts_ ++ [uint32_t b.restarts_.length]).flatMap fixed32Bytes ++ []) := by
    rw [← hbuilt.buffer]
    exact hfinish
  refine ⟨q, _, hl, hiter, ⟨⟨_, hdata⟩, hoffset.symm, rfl, fun r hr => ?_, rfl⟩, rfl⟩
  · have hin : r * interval ≤ es.length := by
      have hmul := Nat.mul_le_mul_right interval hr
      have hall := hbuilt.count
      omega
    have hpoint : (b.restarts_ ++ [uint32_t b.restarts_.length])[r]? =
        some (offset interval es (r * interval)) := by
      rw [List.getElem?_append_left (by omega), hbuilt.restarts, List.getElem?_map,
        List.getElem?_range (by omega), Option.map_some]
    have hlt := lt_of_le_of_lt (@offset_le interval es _ _ hin) hl.size
    have hread := fixed32_at hpoint hlt b.buffer_ []
    rw [← hfinish] at hread
    exact hread

/-- A block that was built from entries in ascending order of their keys is opened, and the iterator
moves over it like a cursor over the entries, however it is moved. -/
theorem block_iter_refines {compare : List UInt8 → List UInt8 → Ordering} [Std.TransCmp compare]
    (hpos : 0 < interval) (hsorted : Ascending compare es)
    (hsize : (buildBlock interval es).finish.length < 2 ^ 32) (moves : List (Move (List UInt8))) :
    ∃ it, (Block.new (buildBlock interval es).finish).newIterator = .ok (some it) ∧
      (moves.foldl (BlockIter.move compare) it).entry =
        (moves.foldl (step (keyBelow compare) es) none).bind (es[·]?) ∧
      (moves.foldl (BlockIter.move compare) it).status_ = .ok := by
  obtain ⟨q, it, hl, hiter, hover, hend⟩ := newIterator_over hpos hsize
  have hstart : Stands interval q es it none := hend
  have hfollows := block_follows hsorted hl
  obtain ⟨hkept, hentry⟩ := hfollows.run hsorted ⟨none, hover, hstart⟩ (hstart.entry hover) moves
  exact ⟨it, hiter, hentry, hfollows.status hkept⟩

/-- Three entries, the third of them at a restart: looked up, and gone back from. -/
theorem block_iter_refines_three :
    ∃ it, (Block.new (buildBlock 2 [([1, 2], [7]), ([1, 3], []), ([2], [8, 9])]).finish).newIterator =
        .ok (some it) ∧
      ([Move.seek [1, 4], .prev].foldl (BlockIter.move compare) it).entry = some ([1, 3], []) ∧
      ([Move.seek [1, 4], .prev].foldl (BlockIter.move compare) it).status_ = .ok :=
  @block_iter_refines 2 ([([1, 2], [7]), ([1, 3], []), ([2], [8, 9])]) compare _ (by decide)
    (by unfold Ascending; decide) (by decide) [.seek [1, 4], .prev]

end Open

end Triangles.LevelDb
