import Mathlib.Algebra.BigOperators.Fin
import Mathlib.Algebra.BigOperators.Group.Finset.Piecewise
import Mathlib.Data.List.Nodup
import Mathlib.Tactic.Common

/-! Two ways a table keeps its members: an array in which every member knows its own place, and
a family of bucket lists over which members are counted. -/

namespace Roster

variable {α : Type}

def Indexed (v : List α) (place : α → Option Nat) : Prop :=
  ∀ i a, v[i]? = some a ↔ place a = some i

theorem Indexed.mem {v : List α} {place : α → Option Nat} (h : Indexed v place) (a : α) :
    a ∈ v ↔ (place a).isSome := by
  rw [List.mem_iff_getElem?, Option.isSome_iff_exists]
  constructor
  · rintro ⟨i, hi⟩
    exact ⟨i, (h i a).mp hi⟩
  · rintro ⟨i, hi⟩
    exact ⟨i, (h i a).mpr hi⟩

theorem Indexed.nodup {v : List α} {place : α → Option Nat} (h : Indexed v place) : v.Nodup := by
  rw [List.nodup_iff_injective_getElem]
  intro i j hij
  have hi := (h i v[i]).mp (List.getElem?_eq_getElem i.2)
  have hj := (h j v[j]).mp (List.getElem?_eq_getElem j.2)
  rw [show v[i] = v[j] from hij, hj] at hi
  exact Fin.ext (Option.some.inj hi).symm

/-- The array and the places may be told in other words. -/
theorem Indexed.congr {v : List α} {place place' : α → Option Nat} (h : Indexed v place)
    (he : ∀ a, place' a = place a) : Indexed v place' := by
  intro i a
  rw [he]
  exact h i a

variable [DecidableEq α]

/-- A member that is new goes to the end. -/
theorem Indexed.push {v : List α} {place : α → Option Nat} (h : Indexed v place) {a : α}
    (ha : place a = none) : Indexed (v ++ [a]) (Function.update place a (some v.length)) := by
  intro i b
  rw [List.getElem?_append]
  by_cases hb : b = a
  · subst hb
    rw [Function.update_self]
    split
    · rename_i hi
      rw [h i b, ha]
      simp only [reduceCtorEq, Option.some.injEq, false_iff]
      omega
    · rename_i hi
      rw [List.getElem?_singleton]
      split
      · simp only [true_iff, Option.some.injEq]
        omega
      · simp only [reduceCtorEq, Option.some.injEq, false_iff]
        omega
  · rw [Function.update_of_ne hb]
    split
    · exact h i b
    · rename_i hi
      have hv : v[i]? = none := List.getElem?_eq_none (not_lt.mp hi)
      rw [← h i b, hv, List.getElem?_singleton]
      split
      · simp only [Option.some.injEq, reduceCtorEq, iff_false]
        exact fun he => hb he.symm
      · rfl

/-- Two members change places. -/
theorem Indexed.swap {v : List α} {place : α → Option Nat} (h : Indexed v place) {i j : Nat}
    {a b : α} (ha : v[i]? = some a) (hb : v[j]? = some b) (hij : i ≠ j) :
    Indexed ((v.set i b).set j a)
      (Function.update (Function.update place a (some j)) b (some i)) := by
  have hpa := (h i a).mp ha
  have hpb := (h j b).mp hb
  have hab : a ≠ b := by
    rintro rfl
    exact hij (Option.some.inj (hpa.symm.trans hpb))
  have hi : i < v.length := (List.getElem?_eq_some_iff.mp ha).1
  have hj : j < v.length := (List.getElem?_eq_some_iff.mp hb).1
  intro k c
  simp only [List.getElem?_set, List.length_set, Function.update_apply]
  by_cases hjk : j = k
  · subst hjk
    simp only [hj, if_true]
    by_cases hcb : c = b
    · subst hcb
      simp [hab, hij]
    · by_cases hca : c = a
      · subst hca
        simp [hcb]
      · rw [if_neg hcb, if_neg hca, ← h j c, hb]
        simp [Ne.symm hca, Ne.symm hcb]
  · rw [if_neg hjk]
    by_cases hik : i = k
    · subst hik
      simp only [hi, if_true]
      by_cases hcb : c = b
      · subst hcb
        simp
      · rw [if_neg hcb]
        by_cases hca : c = a
        · subst hca
          simp [Ne.symm hcb, hjk]
        · rw [if_neg hca, ← h i c, ha]
          simp [Ne.symm hca, Ne.symm hcb]
    · rw [if_neg hik, h k c]
      by_cases hcb : c = b
      · subst hcb
        simp [hpb, hjk, hik]
      · rw [if_neg hcb]
        by_cases hca : c = a
        · subst hca
          simp [hpa, hjk, hik]
        · rw [if_neg hca]

/-- The last member leaves. -/
theorem Indexed.pop {v : List α} {place : α → Option Nat} (h : Indexed v place) {a : α}
    (ha : v[v.length - 1]? = some a) : Indexed v.dropLast (Function.update place a none) := by
  have hpa := (h _ a).mp ha
  have hpos : 0 < v.length := by
    have := (List.getElem?_eq_some_iff.mp ha).1
    omega
  intro i b
  rw [List.getElem?_dropLast]
  by_cases hb : b = a
  · subst hb
    rw [Function.update_self]
    split
    · rename_i hi
      rw [h i b, hpa]
      simp only [Option.some.injEq, reduceCtorEq, iff_false]
      omega
    · simp
  · rw [Function.update_of_ne hb]
    split
    · exact h i b
    · rename_i hi
      rw [← h i b]
      simp only [reduceCtorEq, false_iff]
      intro hib
      have hil : i < v.length := (List.getElem?_eq_some_iff.mp hib).1
      rw [show i = v.length - 1 by omega, ha] at hib
      exact hb (Option.some.inj hib).symm

section Held

variable {ι : Type} [Fintype ι] [DecidableEq ι]

def held (v : ι → List α) (a : α) : Nat := ∑ b, (v b).count a

def filled (v : ι → List α) : Nat := ∑ b, (v b).length

omit [DecidableEq α] in
/-- A measure summed over the buckets changes by the bucket that is replaced. -/
theorem sum_update (f : List α → Nat) (v : ι → List α) (b : ι) (l : List α) :
    ∑ c, f (Function.update v b l c) + f (v b) = ∑ c, f (v c) + f l := by
  have hv := Finset.add_sum_erase Finset.univ (fun c => f (v c)) (Finset.mem_univ b)
  have hu := Finset.add_sum_erase Finset.univ (fun c => f (Function.update v b l c))
    (Finset.mem_univ b)
  have hrest : ∑ c ∈ Finset.univ.erase b, f (Function.update v b l c) =
      ∑ c ∈ Finset.univ.erase b, f (v c) := by
    apply Finset.sum_congr rfl
    intro c hc
    rw [Function.update_of_ne (Finset.ne_of_mem_erase hc)]
  simp only [Function.update_self] at hu
  omega

theorem held_update (v : ι → List α) (b : ι) (l : List α) (a : α) :
    held (Function.update v b l) a + (v b).count a = held v a + l.count a :=
  sum_update (List.count a) v b l

omit [DecidableEq α] in
theorem filled_update (v : ι → List α) (b : ι) (l : List α) :
    filled (Function.update v b l) + (v b).length = filled v + l.length :=
  sum_update List.length v b l

omit [DecidableEq ι] in
theorem held_eq_zero {v : ι → List α} {a : α} : held v a = 0 ↔ ∀ b, a ∉ v b := by
  simp [held, List.count_eq_zero]

omit [DecidableEq ι] in
theorem held_pos {v : ι → List α} {a : α} {b : ι} (h : a ∈ v b) : 0 < held v a := by
  rw [Nat.pos_iff_ne_zero]
  intro h0
  exact held_eq_zero.mp h0 b h

theorem count_le_held (v : ι → List α) (a : α) (b : ι) : (v b).count a ≤ held v a := by
  have hu := held_update v b [] a
  rw [List.count_nil] at hu
  omega

/-- A member held once is in one bucket only, and once there. -/
theorem unique_of_held {v : ι → List α} {a : α} (h : held v a = 1) :
    (∃! b, a ∈ v b) ∧ ∀ b, (v b).count a ≤ 1 := by
  refine ⟨?_, fun b => h ▸ count_le_held v a b⟩
  have hex : ∃ b, a ∈ v b := by
    by_contra hno
    rw [held_eq_zero.mpr fun b hb => hno ⟨b, hb⟩] at h
    cases h
  obtain ⟨b, hb⟩ := hex
  refine ⟨b, hb, ?_⟩
  intro c hc
  by_contra hne
  have hu := held_update v b [] a
  have hpos := List.count_pos_iff.mpr hb
  have hrest : held (Function.update v b []) a = 0 := by
    rw [List.count_nil] at hu
    omega
  have hout := held_eq_zero.mp hrest c
  rw [Function.update_of_ne hne] at hout
  exact hout hc

/-! Members under other names. -/

section Renamed

variable {β : Type} [DecidableEq β] {v : ι → List α} {v' : ι → List β} {φ : α → β}

omit [DecidableEq ι] in
/-- A member is held as often under its new name, when no other gets that name. -/
theorem held_map (hv : ∀ b, (v' b).Perm ((v b).map φ)) {a : α}
    (ha : ∀ b, ∀ x ∈ v b, φ x = φ a → x = a) : held v' (φ a) = held v a := by
  refine Finset.sum_congr rfl fun b _ => ?_
  rw [(hv b).count_eq, List.count, List.countP_map, List.count]
  refine List.countP_congr fun x hx => ?_
  rw [Function.comp_apply, beq_iff_eq, beq_iff_eq]
  exact ⟨ha b x hx, fun h => congrArg φ h⟩

omit [DecidableEq α] [DecidableEq ι] in
/-- A name that no member has gets held by none. -/
theorem held_map_zero (hv : ∀ b, (v' b).Perm ((v b).map φ)) {n : β}
    (hn : ∀ b, ∀ x ∈ v b, φ x ≠ n) : held v' n = 0 := by
  rw [held_eq_zero]
  intro b hmem
  obtain ⟨x, hx, hxn⟩ := List.mem_map.mp ((hv b).mem_iff.mp hmem)
  exact hn b x hx hxn

omit [DecidableEq α] [DecidableEq ι] [DecidableEq β] in
theorem filled_map (hv : ∀ b, (v' b).Perm ((v b).map φ)) : filled v' = filled v :=
  Finset.sum_congr rfl fun b _ => (hv b).length_eq.trans (List.length_map φ)

end Renamed

end Held

/-- Counting over the buckets is counting in all of them together. -/
theorem count_flatMap {n : Nat} (v : Fin n → List α) (a : α) :
    ((List.finRange n).flatMap v).count a = held v a := by
  rw [List.count_flatMap, held, Fin.sum_univ_def]
  rfl

omit [DecidableEq α] in
theorem length_flatMap {n : Nat} (v : Fin n → List α) :
    ((List.finRange n).flatMap v).length = filled v := by
  rw [List.length_flatMap, filled, Fin.sum_univ_def]

/-- Without repetition inside a bucket, a member is held by as many buckets as contain it. -/
theorem length_filter_mem {n : Nat} {v : Fin n → List α} (hv : ∀ b, (v b).Nodup) (a : α) :
    ((List.finRange n).filter fun b => a ∈ v b).length = held v a := by
  rw [held, Fin.sum_univ_def, ← List.countP_eq_length_filter]
  induction List.finRange n with
  | nil => rfl
  | cons b l ih =>
    rw [List.countP_cons, ih, List.map_cons, List.sum_cons, (hv b).count, Nat.add_comm]
    simp

end Roster
