import Triangles.Lib.Roster
import Triangles.Model.AddrMan

/-! The tables of the address manager as such: for every id whether it is tried and how many
references it counts, and the buckets that hold it. -/

namespace Triangles

open Roster

/-- What a call in progress has done with one id: nothing, taken it up without counting the
reference to come, or counted that reference before a bucket has it. -/
inductive Motion where
  | still
  | joining (nId : Nat)
  | counted (nId : Nat)

def Motion.owed : Motion → Nat → Int
  | .counted x, nId => if nId = x then 1 else 0
  | _, _ => 0

@[simp] theorem Motion.owed_still (nId : Nat) : Motion.still.owed nId = 0 := rfl

@[simp] theorem Motion.owed_joining (x nId : Nat) : (Motion.joining x).owed nId = 0 := rfl

theorem Motion.owed_counted (x nId : Nat) :
    (Motion.counted x).owed nId = if nId = x then 1 else 0 := rfl

theorem Motion.still_ne_joining (nId : Nat) : Motion.still ≠ .joining nId := nofun

theorem Motion.owed_of_ne {m : Motion} {nId : Nat} (h : m ≠ .counted nId) : m.owed nId = 0 := by
  cases m with
  | still => rfl
  | joining x => rfl
  | counted x =>
    rw [owed_counted, if_neg]
    rintro rfl
    exact h rfl

/-- What the record of an id says of the tables, next to how often it stands in them. -/
def Seated (m : Motion) (nId tried new : Nat) : Option (Bool × Int) → Prop
  | none => tried = 0 ∧ new = 0
  | some (true, nRefCount) => nRefCount = 0 ∧ tried = 1 ∧ new = 0
  | some (false, nRefCount) => tried = 0 ∧ nRefCount = new + m.owed nId ∧ nRefCount ≤ 4 ∧
      (m = .joining nId → nRefCount ≤ 3) ∧ (m ≠ .joining nId → 1 ≤ nRefCount)

/-- Between calls it does not matter which id the record is of. -/
theorem Seated.still {nId tried new : Nat} {seat : Option (Bool × Int)}
    (h : Seated .still nId tried new seat) (nId' : Nat) : Seated .still nId' tried new seat := by
  rcases seat with _ | ⟨_ | _, nRefCount⟩
  · exact h
  · obtain ⟨htried, hnew, hle, -, hge⟩ := h
    exact ⟨htried, hnew, hle, fun hm => absurd hm (Motion.still_ne_joining nId'),
      fun _ => hge (Motion.still_ne_joining nId)⟩
  · exact h

abbrev NewBuckets := Fin ADDRMAN_NEW_BUCKET_COUNT → List Nat

abbrev TriedBuckets := Fin ADDRMAN_TRIED_BUCKET_COUNT → List Nat

structure Tables (m : Motion) (seat : Nat → Option (Bool × Int)) (vvTried : TriedBuckets)
    (vvNew : NewBuckets) (nTried : Int) : Prop where
  seated : ∀ nId, Seated m nId (held vvTried nId) (held vvNew nId) (seat nId)
  nodup : ∀ b, (vvNew b).Nodup
  new_small : ∀ b, (vvNew b).length ≤ ADDRMAN_NEW_BUCKET_SIZE
  tried_small : ∀ k, (vvTried k).length ≤ ADDRMAN_TRIED_BUCKET_SIZE
  tried_count : nTried = filled vvTried

namespace Tables

variable {m : Motion} {seat : Nat → Option (Bool × Int)} {vvTried : TriedBuckets}
  {vvNew : NewBuckets} {nTried : Int} {nId : Nat} {nRefCount : Int}

theorem seated_none (h : Tables m seat vvTried vvNew nTried) (hs : seat nId = none) :
    held vvTried nId = 0 ∧ held vvNew nId = 0 := by
  have hn := h.seated nId
  rw [hs] at hn
  exact hn

theorem seated_tried (h : Tables m seat vvTried vvNew nTried)
    (hs : seat nId = some (true, nRefCount)) :
    nRefCount = 0 ∧ held vvTried nId = 1 ∧ held vvNew nId = 0 := by
  have hn := h.seated nId
  rw [hs] at hn
  exact hn

theorem seated_new (h : Tables m seat vvTried vvNew nTried)
    (hs : seat nId = some (false, nRefCount)) :
    held vvTried nId = 0 ∧ nRefCount = held vvNew nId + m.owed nId ∧ nRefCount ≤ 4 ∧
      (m = .joining nId → nRefCount ≤ 3) ∧ (m ≠ .joining nId → 1 ≤ nRefCount) := by
  have hn := h.seated nId
  rw [hs] at hn
  exact hn

/-- A member of a new bucket has a record, and it is not tried. -/
theorem seat_of_new (h : Tables m seat vvTried vvNew nTried) {b : Fin ADDRMAN_NEW_BUCKET_COUNT}
    (hb : nId ∈ vvNew b) : ∃ r, seat nId = some (false, r) := by
  have hpos := held_pos hb
  rcases hs : seat nId with _ | ⟨_ | _, r⟩
  · have := h.seated_none hs
    omega
  · exact ⟨r, rfl⟩
  · have := h.seated_tried hs
    omega

theorem seat_of_tried (h : Tables m seat vvTried vvNew nTried)
    {k : Fin ADDRMAN_TRIED_BUCKET_COUNT} (hk : nId ∈ vvTried k) : seat nId = some (true, 0) := by
  have hpos := held_pos hk
  rcases hs : seat nId with _ | ⟨_ | _, r⟩
  · have := h.seated_none hs
    omega
  · have := h.seated_new hs
    omega
  · have := h.seated_tried hs
    rw [this.1]

theorem held_erase {b : Fin ADDRMAN_NEW_BUCKET_COUNT} (hb : nId ∈ vvNew b) (n : Nat) :
    held (Function.update vvNew b ((vvNew b).erase nId)) n + (if n = nId then 1 else 0) =
      held vvNew n := by
  have hu := held_update vvNew b ((vvNew b).erase nId) n
  have hc := List.count_pos_iff.mpr hb
  rw [List.count_erase] at hu
  by_cases hn : n = nId
  · subst hn
    simp only [beq_self_eq_true, if_true] at hu ⊢
    omega
  · have hbeq : (nId == n) = false := beq_eq_false_iff_ne.mpr (Ne.symm hn)
    simp only [hbeq, if_neg hn] at hu ⊢
    simpa using hu

theorem held_insert (b : Fin ADDRMAN_NEW_BUCKET_COUNT) (n : Nat) :
    held (Function.update vvNew b ((vvNew b).orderedInsert (· ≤ ·) nId)) n =
      held vvNew n + (if n = nId then 1 else 0) := by
  have hu := held_update vvNew b ((vvNew b).orderedInsert (· ≤ ·) nId) n
  rw [List.orderedInsert_count] at hu
  by_cases hn : n = nId
  · subst hn
    simp only [if_true] at hu ⊢
    omega
  · rw [if_neg (Ne.symm hn)] at hu
    rw [if_neg hn]
    omega

/-- An id gives up one of its references, and its record with the last one. -/
theorem drop (h : Tables m seat vvTried vvNew nTried) {b : Fin ADDRMAN_NEW_BUCKET_COUNT}
    (hb : nId ∈ vvNew b) (hs : seat nId = some (false, nRefCount)) (hj : m ≠ .joining nId)
    (hc : m ≠ .counted nId) :
    Tables m
      (Function.update seat nId (if nRefCount - 1 = 0 then none else some (false, nRefCount - 1)))
      vvTried (Function.update vvNew b ((vvNew b).erase nId)) nTried where
  seated := by
    intro n
    have he := held_erase hb n
    rw [Function.update_apply]
    by_cases hn : n = nId
    · subst hn
      obtain ⟨ht, hr, hle, -, hge⟩ := h.seated_new hs
      have ho : m.owed n = 0 := Motion.owed_of_ne hc
      have hge := hge hj
      rw [if_pos rfl] at he ⊢
      split
      · exact ⟨ht, by omega⟩
      · exact ⟨ht, by omega, by omega, fun hm => absurd hm hj, fun _ => by omega⟩
    · rw [if_neg hn] at he ⊢
      rw [Nat.add_zero] at he
      rw [he]
      exact h.seated n
  nodup := by
    intro c
    rw [Function.update_apply]
    split
    · exact (h.nodup b).erase nId
    · exact h.nodup c
  new_small := by
    intro c
    rw [Function.update_apply]
    split
    · exact List.length_erase_le.trans (h.new_small b)
    · exact h.new_small c
  tried_small := h.tried_small
  tried_count := h.tried_count

theorem orderedInsert_bucket (hv : ∀ b, (vvNew b).Nodup ∧
    (vvNew b).length ≤ ADDRMAN_NEW_BUCKET_SIZE) {b : Fin ADDRMAN_NEW_BUCKET_COUNT}
    (hb : nId ∉ vvNew b) (hl : (vvNew b).length < ADDRMAN_NEW_BUCKET_SIZE)
    (c : Fin ADDRMAN_NEW_BUCKET_COUNT) :
    (Function.update vvNew b ((vvNew b).orderedInsert (· ≤ ·) nId) c).Nodup ∧
      (Function.update vvNew b ((vvNew b).orderedInsert (· ≤ ·) nId) c).length ≤
        ADDRMAN_NEW_BUCKET_SIZE := by
  rw [Function.update_apply]
  split
  · rw [(List.perm_orderedInsert _ nId (vvNew b)).nodup_iff, List.orderedInsert_length]
    exact ⟨List.nodup_cons.mpr ⟨hb, (hv b).1⟩, hl⟩
  · exact hv c

/-- The seat of an id that the call does not move. -/
theorem seated_other (h : Tables m seat vvTried vvNew nTried) {m' : Motion} {n : Nat}
    (ho : m.owed n = m'.owed n) (hj : m ≠ .joining n) (hj' : m' ≠ .joining n) :
    Seated m' n (held vvTried n) (held vvNew n) (seat n) := by
  rcases hs : seat n with _ | ⟨_ | _, r⟩
  · exact h.seated_none hs
  · obtain ⟨ht, hr, hle, -, hge⟩ := h.seated_new hs
    rw [ho] at hr
    exact ⟨ht, hr, hle, fun hm => absurd hm hj', fun _ => hge hj⟩
  · exact h.seated_tried hs

theorem joining_ne {n : Nat} (hn : n ≠ nId) : Motion.joining nId ≠ .joining n := by
  rintro ⟨⟩
  exact hn rfl

/-- The bucket takes the reference that was counted. -/
theorem insert (h : Tables (.counted nId) seat vvTried vvNew nTried)
    {b : Fin ADDRMAN_NEW_BUCKET_COUNT} (hs : seat nId = some (false, nRefCount))
    (hb : nId ∉ vvNew b) (hl : (vvNew b).length < ADDRMAN_NEW_BUCKET_SIZE) :
    Tables .still seat vvTried
      (Function.update vvNew b ((vvNew b).orderedInsert (· ≤ ·) nId)) nTried where
  seated := by
    intro n
    rw [held_insert]
    by_cases hn : n = nId
    · subst hn
      obtain ⟨ht, hr, hle, -, hge⟩ := h.seated_new hs
      have hge : 1 ≤ nRefCount := hge nofun
      rw [Motion.owed_counted, if_pos rfl] at hr
      rw [hs, if_pos rfl]
      exact ⟨ht, by rw [Motion.owed_still]; omega, hle, nofun, fun _ => hge⟩
    · rw [if_neg hn, Nat.add_zero]
      exact h.seated_other (by rw [Motion.owed_counted, if_neg hn, Motion.owed_still]) nofun nofun
  nodup := fun c => (orderedInsert_bucket (fun b => ⟨h.nodup b, h.new_small b⟩) hb hl c).1
  new_small := fun c => (orderedInsert_bucket (fun b => ⟨h.nodup b, h.new_small b⟩) hb hl c).2
  tried_small := h.tried_small
  tried_count := h.tried_count

/-- A call takes up an id that has room for a reference. -/
theorem join (h : Tables .still seat vvTried vvNew nTried)
    (hs : seat nId = some (false, nRefCount)) (hr : nRefCount ≠ 4) :
    Tables (.joining nId) seat vvTried vvNew nTried where
  seated := by
    intro n
    by_cases hn : n = nId
    · subst hn
      obtain ⟨ht, hc, hle, -, hge⟩ := h.seated_new hs
      rw [hs]
      exact ⟨ht, hc, hle, fun _ => by omega, fun hm => absurd rfl hm⟩
    · exact h.seated_other rfl nofun (joining_ne hn)
  nodup := h.nodup
  new_small := h.new_small
  tried_small := h.tried_small
  tried_count := h.tried_count

/-- A call takes up an id that is in the bucket already. -/
theorem settle (h : Tables (.joining nId) seat vvTried vvNew nTried)
    {b : Fin ADDRMAN_NEW_BUCKET_COUNT} (hb : nId ∈ vvNew b) :
    Tables .still seat vvTried vvNew nTried where
  seated := by
    intro n
    by_cases hn : n = nId
    · subst hn
      obtain ⟨r, hs⟩ := h.seat_of_new hb
      obtain ⟨ht, hc, hle, -, -⟩ := h.seated_new hs
      have hpos := held_pos hb
      rw [hs]
      refine ⟨ht, hc, hle, nofun, fun _ => ?_⟩
      rw [Motion.owed_joining] at hc
      omega
    · exact h.seated_other rfl (joining_ne hn) nofun
  nodup := h.nodup
  new_small := h.new_small
  tried_small := h.tried_small
  tried_count := h.tried_count

theorem count (h : Tables (.joining nId) seat vvTried vvNew nTried)
    (hs : seat nId = some (false, nRefCount)) :
    Tables (.counted nId) (Function.update seat nId (some (false, nRefCount + 1))) vvTried vvNew
      nTried where
  seated := by
    intro n
    rw [Function.update_apply]
    split
    · rename_i hn
      subst hn
      obtain ⟨ht, hc, -, hlt, -⟩ := h.seated_new hs
      have hlt := hlt rfl
      rw [Motion.owed_joining] at hc
      refine ⟨ht, ?_, by omega, nofun, fun _ => by omega⟩
      rw [Motion.owed_counted, if_pos rfl]
      omega
    · rename_i hn
      exact h.seated_other (by rw [Motion.owed_counted, if_neg hn, Motion.owed_joining])
        (joining_ne hn) nofun
  nodup := h.nodup
  new_small := h.new_small
  tried_small := h.tried_small
  tried_count := h.tried_count

theorem fresh (h : Tables .still seat vvTried vvNew nTried) (hs : seat nId = none) :
    Tables (.joining nId) (Function.update seat nId (some (false, 0))) vvTried vvNew nTried where
  seated := by
    intro n
    rw [Function.update_apply]
    split
    · rename_i hn
      subst hn
      obtain ⟨ht, hnew⟩ := h.seated_none hs
      exact ⟨ht, by simp [hnew], by omega, fun _ => by omega, fun hm => absurd rfl hm⟩
    · rename_i hn
      exact h.seated_other rfl nofun (joining_ne hn)
  nodup := h.nodup
  new_small := h.new_small
  tried_small := h.tried_small
  tried_count := h.tried_count

theorem held_leave (hv : ∀ b, (vvNew b).Nodup) (n : Nat) :
    held (fun b => (vvNew b).erase nId) n = if n = nId then 0 else held vvNew n := by
  split
  · rename_i hn
    subst hn
    rw [held_eq_zero]
    exact fun b => (hv b).not_mem_erase
  · rename_i hn
    exact Finset.sum_congr rfl fun b _ => List.count_erase_of_ne hn

/-- An id leaves every new bucket. -/
theorem leave (h : Tables .still seat vvTried vvNew nTried)
    (hs : seat nId = some (false, nRefCount)) :
    Tables (.joining nId) (Function.update seat nId (some (false, 0))) vvTried
      (fun b => (vvNew b).erase nId) nTried where
  seated := by
    intro n
    rw [Function.update_apply, held_leave h.nodup]
    split
    · rename_i hn
      subst hn
      obtain ⟨ht, -⟩ := h.seated_new hs
      exact ⟨ht, by simp, by omega, fun _ => by omega, fun hm => absurd rfl hm⟩
    · rename_i hn
      exact h.seated_other rfl nofun (joining_ne hn)
  nodup := fun b => (h.nodup b).erase nId
  new_small := fun b => List.length_erase_le.trans (h.new_small b)
  tried_small := h.tried_small
  tried_count := h.tried_count

/-- An id without references goes to a tried bucket with room. -/
theorem enter (h : Tables (.joining nId) seat vvTried vvNew nTried)
    (hs : seat nId = some (false, 0)) {k : Fin ADDRMAN_TRIED_BUCKET_COUNT}
    (hl : (vvTried k).length < ADDRMAN_TRIED_BUCKET_SIZE) :
    Tables .still (Function.update seat nId (some (true, 0)))
      (Function.update vvTried k (vvTried k ++ [nId])) vvNew (nTried + 1) where
  seated := by
    intro n
    have hu := held_update vvTried k (vvTried k ++ [nId]) n
    rw [List.count_append, List.count_singleton] at hu
    rw [Function.update_apply]
    split
    · rename_i hn
      subst hn
      obtain ⟨ht, hc, -⟩ := h.seated_new hs
      rw [Motion.owed_joining] at hc
      simp only [beq_self_eq_true, if_true] at hu
      exact ⟨rfl, by omega, by omega⟩
    · rename_i hn
      have hbeq : (nId == n) = false := beq_eq_false_iff_ne.mpr (Ne.symm hn)
      rw [hbeq] at hu
      have hheld : held (Function.update vvTried k (vvTried k ++ [nId])) n = held vvTried n := by
        simpa using hu
      rw [hheld]
      exact h.seated_other rfl (joining_ne hn) nofun
  nodup := h.nodup
  new_small := h.new_small
  tried_small := by
    intro c
    rw [Function.update_apply]
    split
    · rw [List.length_append, List.length_singleton]
      exact hl
    · exact h.tried_small c
  tried_count := by
    have hu := filled_update vvTried k (vvTried k ++ [nId])
    rw [List.length_append, List.length_singleton] at hu
    rw [h.tried_count]
    omega

/-- An id without references takes the place of another in a tried bucket, which goes back to a
new bucket. -/
theorem evict (h : Tables (.joining nId) seat vvTried vvNew nTried)
    (hs : seat nId = some (false, 0)) {k : Fin ADDRMAN_TRIED_BUCKET_COUNT} {l : List Nat}
    (hp : l.Perm (vvTried k)) {nPos nOld : Nat} (hold : l[nPos]? = some nOld)
    {b : Fin ADDRMAN_NEW_BUCKET_COUNT} (hl : (vvNew b).length < ADDRMAN_NEW_BUCKET_SIZE) :
    Tables .still
      (Function.update (Function.update seat nOld (some (false, 1))) nId (some (true, 0)))
      (Function.update vvTried k (l.set nPos nId))
      (Function.update vvNew b ((vvNew b).orderedInsert (· ≤ ·) nOld)) nTried := by
  obtain ⟨hlt, hget⟩ := List.getElem?_eq_some_iff.mp hold
  have hmem : nOld ∈ vvTried k := hp.mem_iff.mp (hget ▸ List.getElem_mem hlt)
  have hsold := h.seat_of_tried hmem
  obtain ⟨-, htold, hnold⟩ := h.seated_tried hsold
  obtain ⟨htid, hcid, -⟩ := h.seated_new hs
  rw [Motion.owed_joining] at hcid
  have hne : nOld ≠ nId := by
    rintro rfl
    rw [hs] at hsold
    cases hsold
  have hout : nOld ∉ vvNew b := held_eq_zero.mp hnold b
  refine
    { seated := ?_
      nodup := fun c => (orderedInsert_bucket (fun b => ⟨h.nodup b, h.new_small b⟩) hout hl c).1
      new_small := fun c =>
        (orderedInsert_bucket (fun b => ⟨h.nodup b, h.new_small b⟩) hout hl c).2
      tried_small := ?_, tried_count := ?_ }
  · intro n
    have hu := held_update vvTried k (l.set nPos nId) n
    rw [List.count_set hlt, hget, hp.count_eq] at hu
    have hpos := List.count_pos_iff.mpr hmem
    rw [held_insert, Function.update_apply, Function.update_apply]
    by_cases hn : n = nId
    · subst hn
      have hbeq : (nOld == n) = false := beq_eq_false_iff_ne.mpr hne
      simp only [hbeq, beq_self_eq_true, if_true, if_neg (Ne.symm hne)] at hu ⊢
      simp only [Bool.false_eq_true, if_false] at hu
      exact ⟨rfl, by omega, by omega⟩
    · have hbeq : (nId == n) = false := beq_eq_false_iff_ne.mpr (Ne.symm hn)
      rw [if_neg hn]
      by_cases ho : n = nOld
      · subst ho
        simp only [hbeq, beq_self_eq_true, if_true, Bool.false_eq_true, if_false] at hu ⊢
        exact ⟨by omega, by simp [hnold], by omega, nofun, fun _ => by omega⟩
      · have hbeq' : (nOld == n) = false := beq_eq_false_iff_ne.mpr (Ne.symm ho)
        simp only [hbeq, hbeq', Bool.false_eq_true, if_false, if_neg ho] at hu ⊢
        have hheld : held (Function.update vvTried k (l.set nPos nId)) n = held vvTried n := by
          omega
        rw [hheld, Nat.add_zero]
        exact h.seated_other rfl (joining_ne hn) nofun
  · intro c
    rw [Function.update_apply]
    split
    · rw [List.length_set, hp.length_eq]
      exact h.tried_small k
    · exact h.tried_small c
  · have hu := filled_update vvTried k (l.set nPos nId)
    rw [List.length_set, hp.length_eq] at hu
    rw [h.tried_count]
    omega

/-- Records and buckets agree under other names as well. -/
theorem rename {seat seat' : Nat → Option (Bool × Int)} {vvTried vvTried' : TriedBuckets}
    {vvNew vvNew' : NewBuckets} {nTried : Int}
    (h : Tables .still seat vvTried vvNew nTried) (φ : Nat → Nat)
    (hinj : ∀ {a b}, (seat a).isSome → φ a = φ b → a = b)
    (hseat : ∀ {a}, (seat a).isSome → seat' (φ a) = seat a)
    (hnone : ∀ {n}, (seat' n).isSome → ∃ a, (seat a).isSome ∧ φ a = n)
    (htried : ∀ k, (vvTried' k).Perm ((vvTried k).map φ))
    (hnew : ∀ b, (vvNew' b).Perm ((vvNew b).map φ)) : Tables .still seat' vvTried' vvNew' nTried where
  seated n := by
    have htriedSome : ∀ k, ∀ x ∈ vvTried k, (seat x).isSome := fun k x hx => by
      rw [h.seat_of_tried hx]
      rfl
    have hnewSome : ∀ b, ∀ x ∈ vvNew b, (seat x).isSome := fun b x hx => by
      obtain ⟨r, hr⟩ := h.seat_of_new hx
      rw [hr]
      rfl
    by_cases hn : ∃ a, (seat a).isSome ∧ φ a = n
    · obtain ⟨a, ha, rfl⟩ := hn
      rw [hseat ha, held_map htried fun k x hx hsame => hinj (htriedSome k x hx) hsame,
        held_map hnew fun b x hx hsame => hinj (hnewSome b x hx) hsame]
      exact (h.seated a).still (φ a)
    · have hempty : seat' n = none := by
        cases hs : seat' n with
        | none => rfl
        | some x => exact absurd (hnone (by rw [hs]; rfl)) hn
      rw [hempty]
      exact ⟨held_map_zero htried fun k x hx hsame => hn ⟨x, htriedSome k x hx, hsame⟩,
        held_map_zero hnew fun b x hx hsame => hn ⟨x, hnewSome b x hx, hsame⟩⟩
  nodup b := by
    refine (hnew b).nodup_iff.mpr (List.Nodup.map_on (fun x hx y _ hxy => hinj ?_ hxy) (h.nodup b))
    obtain ⟨r, hr⟩ := h.seat_of_new hx
    rw [hr]
    rfl
  new_small b := by
    rw [(hnew b).length_eq, List.length_map]
    exact h.new_small b
  tried_small k := by
    rw [(htried k).length_eq, List.length_map]
    exact h.tried_small k
  tried_count := by
    rw [filled_map htried]
    exact h.tried_count

end Tables

end Triangles
