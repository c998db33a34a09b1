import Triangles.Lib.Renumber
import Triangles.Lib.Slots
import Triangles.Lib.Sums
import Triangles.Model.Reorder
import Triangles.Proofs.Undo

/-! The positions after `ReorderTransactions`: they keep their order, and they are distinct exactly
when no item is moved to a new one. -/

namespace Triangles

open Outcome Renumber
open Std (ExtTreeMap)

namespace Reordering

variable {s s' : Reordering} {p q : TxPair} {env : Env} {nVersion : Int} {takes : Nat → Bool}

def Points (s : Reordering) : TxPair → Prop
  | .wtx hash => hash ∈ s.mapWallet
  | .acentry n => n < s.acentries.length

def tally (s : Reordering) : Tally := ⟨s.nOrderPosNext, s.nOrderPosOffsets⟩

def oldPlace (nOrderPos : Int) : Option Int := if nOrderPos = -1 then none else some nOrderPos

/-! One item. -/

theorem nOrderPos_setOrderPos (n : Int) (h : s.Points p) :
    (s.setOrderPos n p).nOrderPos q = if q = p then n else s.nOrderPos q := by
  cases p with
  | wtx hash =>
    cases q with
    | wtx other =>
      simp only [setOrderPos, nOrderPos, ExtTreeMap.getElem?_modify, TxPair.wtx.injEq,
        Std.LawfulEqCmp.compare_eq_iff_eq]
      by_cases heq : other = hash
      · obtain ⟨wtx, hwtx⟩ := Option.isSome_iff_exists.mp (ExtTreeMap.mem_iff_isSome_getElem?.mp h)
        rw [if_pos heq.symm, if_pos heq, hwtx]
        rfl
      · rw [if_neg (Ne.symm heq), if_neg heq]
    | acentry n => rfl
  | acentry i =>
    cases q with
    | wtx other => rfl
    | acentry j =>
      simp only [setOrderPos, nOrderPos, List.getElem?_modify, TxPair.acentry.injEq]
      by_cases heq : j = i
      · have hi : i < s.acentries.length := h
        rw [if_pos heq, heq, List.getElem?_eq_getElem hi]
        simp
      · rw [if_neg heq]
        simp [Ne.symm heq]

theorem points_setOrderPos (n : Int) : (s.setOrderPos n p).Points q ↔ s.Points q := by
  cases p with
  | wtx hash =>
    cases q with
    | wtx other => exact ExtTreeMap.mem_modify
    | acentry n => exact Iff.rfl
  | acentry i =>
    cases q with
    | wtx other => exact Iff.rfl
    | acentry j =>
      unfold Points setOrderPos
      rw [List.length_modify]

/-- What a write leaves as it was. -/
structure SameItems (s s' : Reordering) : Prop where
  nOrderPos : ∀ q, s'.nOrderPos q = s.nOrderPos q
  points : ∀ q, s'.Points q ↔ s.Points q
  tally : s'.tally = s.tally

theorem writeTx_same (env : Env) (s : Reordering) (hash : uint256) : SameItems s (s.writeTx env hash) := by
  unfold writeTx
  cases hwtx : s.mapWallet[hash]? with
  | none => exact ⟨fun _ => rfl, fun _ => Iff.rfl, rfl⟩
  | some wtx =>
    refine ⟨fun q => ?_, fun q => ?_, rfl⟩
    · cases q with
      | wtx other =>
        simp only [nOrderPos, Slots.getElem?_insert_eq]
        split_ifs with heq
        · rw [← heq, hwtx]
          rfl
        · rfl
      | acentry n => rfl
    · cases q with
      | wtx other =>
        simp only [Points, ExtTreeMap.mem_insert, Std.LawfulEqCmp.compare_eq_iff_eq]
        refine or_iff_right_of_imp fun heq => ?_
        rw [← heq, ExtTreeMap.mem_iff_isSome_getElem?, hwtx]
        rfl
      | acentry n => exact Iff.rfl

theorem writeAccountingEntry_same (nVersion : Int) (s : Reordering) (n : Nat) :
    SameItems s (s.writeAccountingEntry nVersion n) := by
  unfold writeAccountingEntry
  cases hentry : s.acentries[n]? with
  | none => exact ⟨fun _ => rfl, fun _ => Iff.rfl, rfl⟩
  | some entry =>
    refine ⟨fun q => ?_, fun q => ?_, rfl⟩
    · cases q with
      | wtx other => rfl
      | acentry m =>
        simp only [nOrderPos, List.getElem?_set]
        split_ifs with heq hlt
        · rw [← heq, hentry]
          rfl
        · rw [← heq, List.getElem?_eq_none (not_lt.mp hlt)]
        · rfl
    · cases q with
      | wtx other => exact Iff.rfl
      | acentry m =>
        simp only [Points, List.length_set]

theorem writeBack_same (h : s.writeBack env nVersion takes p = (true, s')) : SameItems s s' := by
  unfold writeBack at h
  simp only at h
  have hcount : SameItems s { s with nWrites := s.nWrites + 1 } :=
    ⟨fun q => by cases q <;> rfl, fun q => by cases q <;> rfl, rfl⟩
  have htrans : ∀ {s''}, SameItems { s with nWrites := s.nWrites + 1 } s'' → SameItems s s'' :=
    fun hsame => ⟨fun q => (hsame.nOrderPos q).trans (hcount.nOrderPos q),
      fun q => (hsame.points q).trans (hcount.points q), hsame.tally.trans hcount.tally⟩
  split_ifs at h
  · cases p with
    | wtx hash =>
      rw [← (Prod.mk.inj h).2]
      exact htrans (writeTx_same env _ hash)
    | acentry n =>
      rw [← (Prod.mk.inj h).2]
      exact htrans (writeAccountingEntry_same nVersion _ n)
  · cases h

/-- The offset is the number of new places up to the position. -/
theorem offset_eq (nOrderPosOffsets : List Int) (nOrderPos : Int) :
    nOrderPosOffsets.foldl (fun nOrderPosOff nOffsetStart =>
      if nOffsetStart ≤ nOrderPos then nOrderPosOff + 1 else nOrderPosOff) (0 : Int) =
      (nOrderPosOffsets.countP fun o => decide (o ≤ nOrderPos) : Nat) := by
  suffices hall : ∀ (l : List Int) (n : Int), l.foldl (fun nOrderPosOff nOffsetStart =>
      if nOffsetStart ≤ nOrderPos then nOrderPosOff + 1 else nOrderPosOff) n =
      n + (l.countP fun o => decide (o ≤ nOrderPos) : Nat) by
    rw [hall, zero_add]
  intro l
  induction l with
  | nil => exact fun n => (add_zero n).symm
  | cons o l ih =>
    intro n
    rw [List.foldl_cons, ih, List.countP_cons]
    by_cases ho : o ≤ nOrderPos
    · rw [if_pos ho, if_pos (decide_eq_true ho)]
      omega
    · rw [if_neg ho, if_neg (by rw [decide_eq_false ho]; exact Bool.false_ne_true)]
      omega

def placed (s : Reordering) (p : TxPair) : Reordering :=
  if s.nOrderPos p = -1 then
    { s.setOrderPos s.nOrderPosNext p with
      nOrderPosNext := int64 (s.nOrderPosNext + 1)
      nOrderPosOffsets := s.nOrderPosOffsets ++ [s.nOrderPosNext] }
  else
    { s.setOrderPos (int64 (s.tally.moved (s.nOrderPos p))) p with
      nOrderPosNext := max s.nOrderPosNext (int64 (int64 (s.tally.moved (s.nOrderPos p)) + 1)) }

theorem reorderItem_placed (h : s.reorderItem env nVersion takes p = (true, s')) :
    SameItems (s.placed p) s' := by
  have hrefl : SameItems (s.placed p) (s.placed p) := ⟨fun _ => rfl, fun _ => Iff.rfl, rfl⟩
  unfold reorderItem at h
  simp only [offset_eq] at h
  by_cases hnew : s.nOrderPos p = -1
  · rw [placed, if_pos hnew] at hrefl ⊢
    rw [if_pos hnew] at h
    cases p with
    | wtx hash =>
      rw [← (Prod.mk.inj h).2]
      exact hrefl
    | acentry n => exact writeBack_same h
  · rw [placed, if_neg hnew] at hrefl ⊢
    rw [if_neg hnew] at h
    split_ifs at h
    · rw [← (Prod.mk.inj h).2]
      exact hrefl
    · exact writeBack_same h

theorem nOrderPos_placed (hp : s.Points p) (q : TxPair) : (s.placed p).nOrderPos q =
    if q = p then (if s.nOrderPos p = -1 then s.nOrderPosNext else int64 (s.tally.moved (s.nOrderPos p)))
    else s.nOrderPos q := by
  unfold placed
  split_ifs with hnew hq hq
  · exact (nOrderPos_setOrderPos s.nOrderPosNext hp).trans (if_pos hq)
  · exact (nOrderPos_setOrderPos s.nOrderPosNext hp).trans (if_neg hq)
  · exact (nOrderPos_setOrderPos (int64 (s.tally.moved (s.nOrderPos p))) hp).trans (if_pos hq)
  · exact (nOrderPos_setOrderPos (int64 (s.tally.moved (s.nOrderPos p))) hp).trans (if_neg hq)

theorem points_placed (p q : TxPair) : (s.placed p).Points q ↔ s.Points q := by
  unfold placed
  split_ifs
  · exact points_setOrderPos s.nOrderPosNext
  · exact points_setOrderPos (int64 (s.tally.moved (s.nOrderPos p)))

/-- The tally with an item has not run out of 64 bits. -/
def FitsWith (s : Reordering) (p : TxPair) : Prop :=
  (s.tally.visit (oldPlace (s.nOrderPos p))).next < 2 ^ 63

/-- A position is what an `int64_t` can hold, and not negative unless it is missing. -/
def Ranged (s : Reordering) (p : TxPair) : Prop :=
  s.nOrderPos p = -1 ∨ 0 ≤ s.nOrderPos p ∧ s.nOrderPos p < 2 ^ 63

theorem FitsWith.exact (hfits : s.FitsWith p) (hsorted : s.tally.Sorted) (hp : s.Ranged p) :
    (s.nOrderPos p = -1 → int64 (s.nOrderPosNext + 1) = s.nOrderPosNext + 1) ∧
      (s.nOrderPos p ≠ -1 → int64 (s.tally.moved (s.nOrderPos p)) = s.tally.moved (s.nOrderPos p) ∧
        int64 (s.tally.moved (s.nOrderPos p) + 1) = s.tally.moved (s.nOrderPos p) + 1) := by
  have hnonneg : 0 ≤ s.nOrderPosNext := hsorted.nonneg
  unfold FitsWith oldPlace at hfits
  refine ⟨fun hnew => ?_, fun hold => ?_⟩
  · rw [if_pos hnew] at hfits
    have hnext : s.nOrderPosNext + 1 < 2 ^ 63 := hfits
    exact int64_of_range (by omega) hnext
  · rw [if_neg hold] at hfits
    have hmoved := Tally.le_moved s.tally (s.nOrderPos p)
    have hpos : 0 ≤ s.nOrderPos p := (hp.resolve_left hold).1
    have hnext : s.tally.moved (s.nOrderPos p) + 1 < 2 ^ 63 := lt_of_le_of_lt (le_max_right _ _) hfits
    exact ⟨int64_of_range (by omega) (by omega), int64_of_range (by omega) hnext⟩

theorem tally_placed (hfits : s.FitsWith p) (hsorted : s.tally.Sorted) (hp : s.Ranged p) :
    (s.placed p).tally = s.tally.visit (oldPlace (s.nOrderPos p)) := by
  have hoffsets : ∀ n, (s.setOrderPos n p).nOrderPosOffsets = s.nOrderPosOffsets := fun n => by
    cases p <;> rfl
  obtain ⟨hnext, hmoved⟩ := hfits.exact hsorted hp
  unfold placed oldPlace
  split_ifs with hnew
  · rw [hnext hnew]
    rfl
  · rw [(hmoved hnew).1, (hmoved hnew).2]
    exact congrArg (Tally.mk _) (hoffsets _)

/-- One round gives the item its place and leaves the others where they are. -/
theorem reorderItem_ok (hp : s.Points p) (hfits : s.FitsWith p) (hsorted : s.tally.Sorted)
    (hrange : s.Ranged p) (h : s.reorderItem env nVersion takes p = (true, s')) :
    (∀ q, s'.nOrderPos q =
      if q = p then s.tally.place (oldPlace (s.nOrderPos p)) else s.nOrderPos q) ∧
    (∀ q, s'.Points q ↔ s.Points q) ∧ s'.tally = s.tally.visit (oldPlace (s.nOrderPos p)) := by
  have hsame := reorderItem_placed h
  refine ⟨fun q => ?_, fun q => (hsame.points q).trans (points_placed p q),
    hsame.tally.trans (tally_placed hfits hsorted hrange)⟩
  rw [hsame.nOrderPos, nOrderPos_placed hp]
  unfold oldPlace
  split_ifs with hq hnew
  · rfl
  · exact ((hfits.exact hsorted hrange).2 hnew).1
  · rfl

/-- The next position is a value of an `int64_t`. -/
theorem reorderItem_next (hnext : s.nOrderPosNext < 2 ^ 63)
    (h : s.reorderItem env nVersion takes p = (true, s')) : s'.nOrderPosNext < 2 ^ 63 := by
  have htally : s'.nOrderPosNext = (s.placed p).nOrderPosNext :=
    congrArg Tally.next (reorderItem_placed h).tally
  rw [htally, placed]
  split_ifs
  · exact (int64_spec _).choose_spec.2.2
  · exact max_lt hnext (int64_spec _).choose_spec.2.2

/-- There are no more new places up to a position than numbers. -/
theorem countP_fresh_le {t : Tally} (h : t.Sorted) {n : Int} (hn : 0 ≤ n) :
    (t.fresh.countP fun o => decide (o ≤ n) : Nat) ≤ n + 1 := by
  have hnodup : (t.fresh.filter fun o => decide (o ≤ n)).Nodup :=
    List.Nodup.filter _ (h.fresh.imp fun hlt => hlt.ne)
  have hsub : (t.fresh.filter fun o => decide (o ≤ n)) ⊆ (List.range (n.toNat + 1)).map Int.ofNat := by
    intro o ho
    obtain ⟨hmem, hle⟩ := List.mem_filter.mp ho
    have hle : o ≤ n := of_decide_eq_true hle
    have hpos := (h.lt_next o hmem).1
    exact List.mem_map.mpr ⟨o.toNat, List.mem_range.mpr (by omega), Int.toNat_of_nonneg hpos⟩
  have hlength := (hnodup.subperm hsub).length_le
  rw [List.length_map, List.length_range, ← List.countP_eq_length_filter] at hlength
  omega

/-- When the tally runs out of 64 bits, the item has a place that is none. -/
theorem reorderItem_overflow (hp : s.Points p) (hover : ¬ s.FitsWith p) (hsorted : s.tally.Sorted)
    (hnext : s.nOrderPosNext < 2 ^ 63) (hrange : s.Ranged p)
    (h : s.reorderItem env nVersion takes p = (true, s')) :
    s'.nOrderPos p < 0 ∨ s'.nOrderPos p = 2 ^ 63 - 1 := by
  rw [(reorderItem_placed h).nOrderPos, nOrderPos_placed hp, if_pos rfl]
  unfold FitsWith oldPlace at hover
  split_ifs with hnew
  · rw [if_pos hnew] at hover
    have hfull : ¬ s.nOrderPosNext + 1 < 2 ^ 63 := hover
    right
    omega
  · rw [if_neg hnew] at hover
    obtain ⟨hlow, hhigh⟩ := hrange.resolve_left hnew
    have hmax : ¬ max s.nOrderPosNext (s.tally.moved (s.nOrderPos p) + 1) < 2 ^ 63 := hover
    have hfull : ¬ s.tally.moved (s.nOrderPos p) + 1 < 2 ^ 63 := fun hlt => hmax (max_lt hnext hlt)
    have hcount := countP_fresh_le hsorted hlow
    have hmoved : s.tally.moved (s.nOrderPos p) ≤ 2 * s.nOrderPos p + 1 := by
      unfold Tally.moved
      omega
    obtain ⟨k, heq, hge, hlt⟩ := int64_spec (s.tally.moved (s.nOrderPos p))
    omega

/-! The loop. -/

def oldPlaces (s : Reordering) (ps : List TxPair) : List (Option Int) :=
  ps.map fun p => oldPlace (s.nOrderPos p)

/-- A round leaves the items after it as they are. -/
theorem rest_kept {m : Reordering} {ps : List TxPair} (hp : p ∉ ps)
    (hplace : ∀ q, q ≠ p → m.nOrderPos q = s.nOrderPos q) (hrange : ∀ q ∈ p :: ps, s.Ranged q) :
    m.oldPlaces ps = s.oldPlaces ps ∧ ∀ q ∈ ps, m.Ranged q := by
  have hkept : ∀ q ∈ ps, m.nOrderPos q = s.nOrderPos q := by
    intro q hq
    have hne : q ≠ p := fun heq => hp (heq ▸ hq)
    exact hplace q hne
  refine ⟨List.map_congr_left fun q hq => congrArg oldPlace (hkept q hq), fun q hq => ?_⟩
  unfold Ranged
  rw [hkept q hq]
  exact hrange q (List.mem_cons_of_mem p hq)

/-- The loop gives the items their places one after the other, as long as they fit. -/
theorem reorderLoop_ok {ps : List TxPair} (hps : ps.Nodup) (hpoints : ∀ p ∈ ps, s.Points p)
    (hsorted : s.tally.Sorted) (hrange : ∀ p ∈ ps, s.Ranged p)
    (hfits : ((s.oldPlaces ps).foldl Tally.visit s.tally).next < 2 ^ 63)
    (h : reorderLoop env nVersion takes ps s = (.DB_LOAD_OK, s')) :
    ps.map s'.nOrderPos = s.tally.places (s.oldPlaces ps) ∧
      (∀ q, q ∉ ps → s'.nOrderPos q = s.nOrderPos q) ∧
      s'.tally = (s.oldPlaces ps).foldl Tally.visit s.tally := by
  induction ps generalizing s with
  | nil =>
    rw [← (Prod.mk.inj h).2]
    exact ⟨rfl, fun _ _ => rfl, rfl⟩
  | cons p ps ih =>
    obtain ⟨hp, hps⟩ := List.nodup_cons.mp hps
    rw [reorderLoop] at h
    cases hround : s.reorderItem env nVersion takes p with
    | mk fOk m =>
      rw [hround] at h
      cases fOk with
      | false => cases (Prod.mk.inj h).1
      | true =>
        have hfirst : s.FitsWith p := lt_of_le_of_lt (Tally.next_le_foldl _ (s.oldPlaces ps)) hfits
        obtain ⟨hplace, hsame, htally⟩ := reorderItem_ok (hpoints p List.mem_cons_self) hfirst hsorted
          (hrange p List.mem_cons_self) hround
        obtain ⟨hold, hranged⟩ := rest_kept hp (fun q hq => (hplace q).trans (if_neg hq)) hrange
        obtain ⟨hplaces, hothers, hfinal⟩ := ih hps
          (fun q hq => (hsame q).mpr (hpoints q (List.mem_cons_of_mem p hq)))
          (htally ▸ hsorted.visit _) hranged (by rw [hold, htally]; exact hfits) h
        refine ⟨?_, fun q hq => ?_, ?_⟩
        · rw [List.map_cons, hplaces, hold, htally, hothers p hp, hplace p, if_pos rfl]
          rfl
        · have hne : q ≠ p := fun heq => hq (heq ▸ List.mem_cons_self)
          rw [hothers q fun hmem => hq (List.mem_cons_of_mem p hmem), hplace q, if_neg hne]
        · rw [hfinal, hold, htally]
          rfl

/-- What the rounds leave alone, fit or not: an item that is not visited, and that the next position is
a value of an `int64_t`. -/
theorem reorderLoop_frame {ps : List TxPair} (hpoints : ∀ p ∈ ps, s.Points p)
    (hnext : s.nOrderPosNext < 2 ^ 63) (h : reorderLoop env nVersion takes ps s = (.DB_LOAD_OK, s')) :
    s'.nOrderPosNext < 2 ^ 63 ∧ ∀ q, q ∉ ps → s'.nOrderPos q = s.nOrderPos q := by
  induction ps generalizing s with
  | nil =>
    rw [← (Prod.mk.inj h).2]
    exact ⟨hnext, fun _ _ => rfl⟩
  | cons p ps ih =>
    rw [reorderLoop] at h
    cases hround : s.reorderItem env nVersion takes p with
    | mk fOk m =>
      rw [hround] at h
      cases fOk with
      | false => cases (Prod.mk.inj h).1
      | true =>
        have hsame := reorderItem_placed hround
        have hpoint : ∀ q, m.Points q ↔ s.Points q := fun q => (hsame.points q).trans (points_placed p q)
        obtain ⟨hlast, hothers⟩ := ih
          (fun q hq => (hpoint q).mpr (hpoints q (List.mem_cons_of_mem p hq)))
          (reorderItem_next hnext hround) h
        refine ⟨hlast, fun q hq => ?_⟩
        have hne : q ≠ p := fun heq => hq (heq ▸ List.mem_cons_self)
        rw [hothers q fun hmem => hq (List.mem_cons_of_mem p hmem), hsame.nOrderPos,
          nOrderPos_placed (hpoints p List.mem_cons_self), if_neg hne]

/-- When the places do not fit, some item has none at the end. -/
theorem reorderLoop_overflow {ps : List TxPair} (hps : ps.Nodup) (hpoints : ∀ p ∈ ps, s.Points p)
    (hsorted : s.tally.Sorted) (hrange : ∀ p ∈ ps, s.Ranged p) (hnext : s.nOrderPosNext < 2 ^ 63)
    (hover : ¬ ((s.oldPlaces ps).foldl Tally.visit s.tally).next < 2 ^ 63)
    (h : reorderLoop env nVersion takes ps s = (.DB_LOAD_OK, s')) :
    ∃ p ∈ ps, s'.nOrderPos p < 0 ∨ s'.nOrderPos p = 2 ^ 63 - 1 := by
  induction ps generalizing s with
  | nil => exact absurd hnext hover
  | cons p ps ih =>
    obtain ⟨hp, hps⟩ := List.nodup_cons.mp hps
    rw [reorderLoop] at h
    cases hround : s.reorderItem env nVersion takes p with
    | mk fOk m =>
      rw [hround] at h
      cases fOk with
      | false => cases (Prod.mk.inj h).1
      | true =>
        have hpoint := hpoints p List.mem_cons_self
        have hsame := reorderItem_placed hround
        have hpoints' : ∀ q ∈ ps, m.Points q := fun q hq =>
          (hsame.points q).mpr ((points_placed p q).mpr (hpoints q (List.mem_cons_of_mem p hq)))
        have hnext' := reorderItem_next hnext hround
        by_cases hfits : s.FitsWith p
        · obtain ⟨hplace, -, htally⟩ := reorderItem_ok hpoint hfits hsorted
            (hrange p List.mem_cons_self) hround
          obtain ⟨hold, hranged⟩ := rest_kept hp (fun q hq => (hplace q).trans (if_neg hq)) hrange
          obtain ⟨q, hq, hbad⟩ := ih hps hpoints' (htally ▸ hsorted.visit _) hranged hnext'
            (by rw [hold, htally]; exact hover) h
          exact ⟨q, List.mem_cons_of_mem p hq, hbad⟩
        · refine ⟨p, List.mem_cons_self, ?_⟩
          rw [(reorderLoop_frame hpoints' hnext' h).2 p hp]
          exact reorderItem_overflow hpoint hfits hsorted hnext (hrange p List.mem_cons_self) hround

/-! The order of the items. -/

theorem insertByTime_perm (item : Int × TxPair) (l : List (Int × TxPair)) :
    (insertByTime item l).Perm (item :: l) := by
  induction l with
  | nil => exact List.Perm.refl _
  | cons other l ih =>
    unfold insertByTime
    split_ifs
    · exact List.Perm.refl _
    · exact (ih.cons other).trans (List.Perm.swap item other l)

theorem txByTime_perm (s : Reordering) : s.txByTime.Perm (s.timed.map Prod.snd) := by
  suffices hall : ∀ l m : List (Int × TxPair),
      (l.foldl (fun m item => insertByTime item m) m).Perm (m ++ l) by
    exact (hall s.timed []).map Prod.snd
  intro l
  induction l with
  | nil =>
    intro m
    rw [List.append_nil]
    exact List.Perm.refl _
  | cons item l ih =>
    intro m
    exact (ih (insertByTime item m)).trans
      (((insertByTime_perm item m).append_right l).trans List.perm_middle.symm)

theorem timed_pointers (s : Reordering) : s.timed.map Prod.snd =
    (s.mapWallet.toList.map fun e => TxPair.wtx e.1) ++
      (List.range s.acentries.length).map TxPair.acentry := by
  rw [timed, List.map_append, List.map_map, List.map_map]
  refine congrArg₂ (· ++ ·) rfl ?_
  have hzip : s.acentries.zipIdx.map Prod.snd = List.range s.acentries.length := by
    rw [List.zipIdx_map_snd, List.range_eq_range']
  rw [← hzip, List.map_map]
  rfl

theorem txByTime_nodup (s : Reordering) : s.txByTime.Nodup := by
  rw [(txByTime_perm s).nodup_iff, timed_pointers, List.nodup_append]
  refine ⟨?_, ?_, ?_⟩
  · have hkeys : (s.mapWallet.toList.map Prod.fst).Nodup := Slots.toList_keys_nodup s.mapWallet
    have hmap := hkeys.map fun a b (heq : TxPair.wtx a = TxPair.wtx b) => TxPair.wtx.inj heq
    rw [List.map_map] at hmap
    exact hmap
  · exact List.nodup_range.map fun a b heq => TxPair.acentry.inj heq
  · intro a ha b hb heq
    obtain ⟨e, -, rfl⟩ := List.mem_map.mp ha
    obtain ⟨n, -, hn⟩ := List.mem_map.mp hb
    rw [← hn] at heq
    cases heq

theorem mem_txByTime : p ∈ s.txByTime ↔ s.Points p := by
  rw [(txByTime_perm s).mem_iff, timed_pointers, List.mem_append, List.mem_map, List.mem_map]
  cases p with
  | wtx hash =>
    simp only [Points, TxPair.wtx.injEq, reduceCtorEq, and_false, exists_false, or_false]
    constructor
    · rintro ⟨e, he, rfl⟩
      rw [ExtTreeMap.mem_iff_isSome_getElem?, ExtTreeMap.mem_toList_iff_getElem?_eq_some.mp he]
      rfl
    · intro hmem
      obtain ⟨wtx, hwtx⟩ := Option.isSome_iff_exists.mp (ExtTreeMap.mem_iff_isSome_getElem?.mp hmem)
      exact ⟨(hash, wtx), ExtTreeMap.mem_toList_iff_getElem?_eq_some.mpr hwtx, rfl⟩
  | acentry n =>
    simp only [Points, reduceCtorEq, and_false, exists_false, false_or, TxPair.acentry.injEq,
      List.mem_range, exists_eq_right]

/-! The call. -/

/-- Positions that have been given are not negative, values of an `int64_t`, and no two items share one. -/
structure Numbered (s : Reordering) : Prop where
  nonneg : ∀ p, s.Points p → s.nOrderPos p ≠ -1 → 0 ≤ s.nOrderPos p
  int64 : ∀ p, s.Points p → s.nOrderPos p < 2 ^ 63
  distinct : ∀ p q, s.Points p → s.Points q → p ≠ q → s.nOrderPos p ≠ -1 →
    s.nOrderPos p ≠ s.nOrderPos q

/-- What the positions are to be afterwards. -/
structure InOrder (s s' : Reordering) : Prop where
  placed : ∀ p, s.Points p → 0 ≤ s'.nOrderPos p ∧ s'.nOrderPos p < s'.nOrderPosNext
  distinct : ∀ p q, s.Points p → s.Points q → p ≠ q → s'.nOrderPos p ≠ s'.nOrderPos q
  kept : ∀ p q, s.Points p → s.Points q → s.nOrderPos p ≠ -1 → s.nOrderPos q ≠ -1 →
    s.nOrderPos p < s.nOrderPos q → s'.nOrderPos p < s'.nOrderPos q

/-- The places of the items without a position when each is put behind all that come before it in
time. -/
def newPlaces (s : Reordering) : List Int := ((s.oldPlaces s.txByTime).foldl Tally.visit ⟨0, []⟩).fresh

/-- No item that has a position is moved, by the number of new places up to it, to a new place. -/
def Clear (s : Reordering) : Prop :=
  ∀ p, s.Points p → s.nOrderPos p ≠ -1 →
    s.nOrderPos p + (s.newPlaces.countP fun o => decide (o ≤ s.nOrderPos p) : Nat) ∉ s.newPlaces

/-- Every item gets its place, and there is a next one, below 2^63. -/
def Fits (s : Reordering) : Prop := ((s.oldPlaces s.txByTime).foldl Tally.visit ⟨0, []⟩).next < 2 ^ 63

theorem mem_oldPlaces {n : Int} : some n ∈ s.oldPlaces s.txByTime ↔
    ∃ p, s.Points p ∧ s.nOrderPos p ≠ -1 ∧ s.nOrderPos p = n := by
  rw [oldPlaces, List.mem_map]
  constructor
  · rintro ⟨p, hp, hplace⟩
    unfold oldPlace at hplace
    split_ifs at hplace with hnew
    exact ⟨p, mem_txByTime.mp hp, hnew, Option.some.inj hplace⟩
  · rintro ⟨p, hp, hold, rfl⟩
    exact ⟨p, mem_txByTime.mpr hp, if_neg hold⟩

/-- The positions that have been given are those of different items. -/
theorem Numbered.oldPlaces_nodup (hs : s.Numbered) : ((s.oldPlaces s.txByTime).filterMap id).Nodup := by
  rw [oldPlaces, List.filterMap_map, List.Nodup, List.pairwise_filterMap]
  refine s.txByTime_nodup.imp_of_mem fun {p q} hp hq hne n hn m hm heq => ?_
  simp only [Function.comp, id, oldPlace] at hn hm
  split_ifs at hn hm with hold
  rw [Option.some.injEq] at hn hm
  refine hs.distinct p q (mem_txByTime.mp hp) (mem_txByTime.mp hq) hne hold ?_
  rw [hn, hm, heq]

theorem Numbered.ranged (hs : s.Numbered) (hp : s.Points p) : s.Ranged p := by
  by_cases hnew : s.nOrderPos p = -1
  · exact .inl hnew
  · exact .inr ⟨hs.nonneg p hp hnew, hs.int64 p hp⟩

/-- After the loop the positions are as they should be when no item is moved to a new place. -/
theorem Numbered.inOrder_iff_clear (hs : s.Numbered) (hstart : s.tally = ⟨0, []⟩) (hfits : s.Fits)
    (h : reorderLoop env nVersion takes s.txByTime s = (.DB_LOAD_OK, s')) : InOrder s s' ↔ s.Clear := by
  obtain ⟨hplaces, -, hfinal⟩ := reorderLoop_ok s.txByTime_nodup (fun p hp => mem_txByTime.mp hp)
    (by rw [hstart]; exact Tally.start_sorted) (fun p hp => hs.ranged (mem_txByTime.mp hp))
    (by rw [hstart]; exact hfits) h
  rw [hstart] at hplaces hfinal
  have hnodup := Tally.places_nodup_iff hs.oldPlaces_nodup
  rw [← hplaces, List.nodup_map_iff_inj_on s.txByTime_nodup] at hnodup
  have hrange := Tally.places_range (l := s.oldPlaces s.txByTime) Tally.start_sorted fun n hn => by
    obtain ⟨p, hp, hold, rfl⟩ := mem_oldPlaces.mp hn
    exact hs.nonneg p hp hold
  have hmoved : ∀ p, s.Points p → s.nOrderPos p ≠ -1 → s'.nOrderPos p = s'.tally.moved (s.nOrderPos p) := by
    intro p hp hold
    rw [hfinal]
    have hmem : (oldPlace (s.nOrderPos p), s'.nOrderPos p) ∈
        (s.oldPlaces s.txByTime).zip (s.txByTime.map s'.nOrderPos) := by
      rw [oldPlaces, List.zip_map', List.mem_map]
      exact ⟨p, mem_txByTime.mpr hp, rfl⟩
    rw [hplaces] at hmem
    exact Tally.mem_zip_places ⟨0, []⟩ hmem (if_neg hold)
  constructor
  · intro horder p hp hold
    refine hnodup.mp (fun a ha b hb heq => ?_) _ (mem_oldPlaces.mpr ⟨p, hp, hold, rfl⟩)
    by_contra hne
    exact horder.distinct a b (mem_txByTime.mp ha) (mem_txByTime.mp hb) hne heq
  · intro hclear
    refine ⟨fun p hp => ?_, fun p q hp hq hne heq => ?_, fun p q hp hq holdp holdq hlt => ?_⟩
    · have hmem := List.mem_map_of_mem (f := s'.nOrderPos) (mem_txByTime.mpr hp)
      rw [hplaces] at hmem
      have hpos := hrange _ hmem
      rw [← hfinal] at hpos
      exact hpos
    · have hinj := hnodup.mpr fun n hn => by
        obtain ⟨p, hp, hold, rfl⟩ := mem_oldPlaces.mp hn
        exact hclear p hp hold
      exact hne (hinj p (mem_txByTime.mpr hp) q (mem_txByTime.mpr hq) heq)
    · rw [hmoved p hp holdp, hmoved q hq holdq]
      exact Tally.moved_lt hlt

/-- Without room for all places the positions are not in order. -/
theorem Numbered.not_inOrder (hs : s.Numbered) (hstart : s.tally = ⟨0, []⟩) (hfull : ¬ s.Fits)
    (h : reorderLoop env nVersion takes s.txByTime s = (.DB_LOAD_OK, s')) : ¬ InOrder s s' := by
  intro horder
  have hnext : s.nOrderPosNext = 0 := congrArg Tally.next hstart
  have hsmall : s.nOrderPosNext < 2 ^ 63 := by
    rw [hnext]
    decide
  have hpoints : ∀ p ∈ s.txByTime, s.Points p := fun p hp => mem_txByTime.mp hp
  obtain ⟨p, hp, hbad⟩ := reorderLoop_overflow s.txByTime_nodup hpoints
    (by rw [hstart]; exact Tally.start_sorted) (fun p hp => hs.ranged (hpoints p hp)) hsmall
    (by rw [hstart]; exact hfull) h
  have hlast := (reorderLoop_frame hpoints hsmall h).1
  obtain ⟨hlow, hhigh⟩ := horder.placed p (hpoints p hp)
  rcases hbad with hneg | hmax
  · omega
  · omega

/-- When the call returns without an error, the items are in order exactly when none is moved to a
new place and all places are below 2^63. -/
theorem reorderTransactions_inOrder_iff {mapWallet : ExtTreeMap uint256 WalletRecord compare}
    {db : AccountWallet.WalletDb} (hstart : reorderStart mapWallet db = .ok s) (hs : s.Numbered)
    (h : reorderTransactions env nVersion takes mapWallet db = .ok (.DB_LOAD_OK, s')) :
    InOrder s s' ↔ s.Clear ∧ s.Fits := by
  rw [reorderTransactions, hstart] at h
  have hloop : reorderLoop env nVersion takes s.txByTime s = (.DB_LOAD_OK, s') := Except.ok.inj h
  have htally : s.tally = ⟨0, []⟩ := by
    rw [reorderStart, bind_ok] at hstart
    obtain ⟨acentries, -, hstart⟩ := hstart
    rw [← pure_ok.mp hstart]
    rfl
  by_cases hfits : s.Fits
  · rw [hs.inOrder_iff_clear htally hfits hloop, and_iff_left hfits]
  · exact iff_of_false (hs.not_inOrder htally hfits hloop) fun h => hfits h.2

end Reordering

namespace Sample

def receivedAt (nTimeReceived : UInt32) (nOrderPos : Int) : WalletRecord where
  tx := { nTime := nTimeReceived, vin := [], vout := [] }
  nTimeReceived := nTimeReceived
  nOrderPos := nOrderPos

def threeItems (first second third : Int) : Reordering where
  mapWallet := (∅ : ExtTreeMap uint256 WalletRecord compare).insert 1 (receivedAt 10 first)
    |>.insert 2 (receivedAt 20 second) |>.insert 3 (receivedAt 30 third)
  acentries := []
  db := (∅ : ExtTreeMap (List UInt8) (List UInt8) compare)

end Sample

namespace Reordering

theorem threeItems_points {first second third : Int}
    (h : (Sample.threeItems first second third).Points p) :
    p = .wtx 1 ∨ p = .wtx 2 ∨ p = .wtx 3 := by
  have hmem := mem_txByTime.mpr h
  have hitems : (Sample.threeItems first second third).txByTime = [.wtx 1, .wtx 2, .wtx 3] := rfl
  rw [hitems] at hmem
  simpa using hmem

theorem reorderTransactions_inOrder_between :
    InOrder (Sample.threeItems 0 (-1) 1)
      (reorderLoop Sample.spendEnv 1 (fun _ => true) [.wtx 1, .wtx 2, .wtx 3]
        (Sample.threeItems 0 (-1) 1)).2 ↔
    (Sample.threeItems 0 (-1) 1).Clear ∧ (Sample.threeItems 0 (-1) 1).Fits := by
  have hstart : reorderStart (Sample.threeItems 0 (-1) 1).mapWallet (Sample.threeItems 0 (-1) 1).db =
      .ok (Sample.threeItems 0 (-1) 1) := rfl
  have hrun : reorderTransactions Sample.spendEnv 1 (fun _ => true)
      (Sample.threeItems 0 (-1) 1).mapWallet (Sample.threeItems 0 (-1) 1).db =
      .ok (.DB_LOAD_OK, (reorderLoop Sample.spendEnv 1 (fun _ => true) [.wtx 1, .wtx 2, .wtx 3]
        (Sample.threeItems 0 (-1) 1)).2) := rfl
  refine reorderTransactions_inOrder_iff hstart
    ⟨fun p hp => ?_, fun p hp => ?_, fun p q hp hq => ?_⟩ hrun
  · rcases threeItems_points hp with rfl | rfl | rfl <;> decide
  · rcases threeItems_points hp with rfl | rfl | rfl <;> decide
  · rcases threeItems_points hp with rfl | rfl | rfl <;>
      rcases threeItems_points hq with rfl | rfl | rfl <;> decide

/-- An item with a place that comes after two new ones is put where the second of them is. -/
theorem reorderTransactions_collides :
    (Sample.threeItems (-1) (-1) 0).Numbered ∧
      ∃ s', reorderTransactions Sample.spendEnv 1 (fun _ => true)
          (Sample.threeItems (-1) (-1) 0).mapWallet (Sample.threeItems (-1) (-1) 0).db =
            .ok (.DB_LOAD_OK, s') ∧
        s'.nOrderPos (.wtx 2) = 1 ∧ s'.nOrderPos (.wtx 3) = 1 := by
  refine ⟨⟨fun p hp => ?_, fun p hp => ?_, fun p q hp hq => ?_⟩, _, rfl, by decide, by decide⟩
  · rcases threeItems_points hp with rfl | rfl | rfl <;> decide
  · rcases threeItems_points hp with rfl | rfl | rfl <;> decide
  · rcases threeItems_points hp with rfl | rfl | rfl <;>
      rcases threeItems_points hq with rfl | rfl | rfl <;> decide

end Reordering

end Triangles
