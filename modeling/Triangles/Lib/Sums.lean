import Mathlib.Algebra.BigOperators.Group.List.Basic
import Mathlib.Algebra.Group.Basic
import Mathlib.Tactic.Abel
import Mathlib.Algebra.Order.Ring.Int
import Mathlib.Data.List.GetD
import Mathlib.Data.List.Sort
import Mathlib.Order.Defs.LinearOrder

/-! Sums over lists, and the exchange of two of them that run over the same items. -/

namespace Sums

variable {α β M : Type} [AddCommGroup M]

theorem foldl_add (f : α → M) (l : List α) (a : M) :
    l.foldl (fun n x => n + f x) a = a + (l.map f).sum := by
  induction l generalizing a with
  | nil => simp
  | cons x l ih => rw [List.foldl_cons, ih, List.map_cons, List.sum_cons, add_assoc]

theorem foldl_sub (f : α → M) (l : List α) (a : M) :
    l.foldl (fun n x => n - f x) a = a - (l.map f).sum := by
  induction l generalizing a with
  | nil => simp
  | cons x l ih => rw [List.foldl_cons, ih, List.map_cons, List.sum_cons, sub_sub]

/-- Items that are left out add nothing. -/
theorem sum_filter (p : α → Bool) (f : α → M) (l : List α) :
    ((l.filter p).map f).sum = (l.map fun x => if p x then f x else 0).sum := by
  induction l with
  | nil => rfl
  | cons x l ih =>
    rw [List.filter_cons, List.map_cons, List.sum_cons, ← ih]
    cases p x <;> simp

theorem sum_sub (f g : α → M) (l : List α) :
    (l.map fun x => f x - g x).sum = (l.map f).sum - (l.map g).sum := by
  induction l with
  | nil => simp
  | cons x l ih =>
    simp only [List.map_cons, List.sum_cons, ih]
    abel

theorem sum_add (f g : α → M) (l : List α) :
    (l.map fun x => f x + g x).sum = (l.map f).sum + (l.map g).sum := by
  induction l with
  | nil => simp
  | cons x l ih =>
    simp only [List.map_cons, List.sum_cons, ih]
    abel

theorem sum_congr {f g : α → M} {l : List α} (h : ∀ x ∈ l, f x = g x) :
    (l.map f).sum = (l.map g).sum := by
  rw [List.map_congr_left h]

theorem sum_flatMap (f : β → M) (g : α → List β) (l : List α) :
    ((l.flatMap g).map f).sum = (l.map fun x => ((g x).map f).sum).sum := by
  induction l with
  | nil => rfl
  | cons x l ih => rw [List.flatMap_cons, List.map_append, List.sum_append, ih, List.map_cons, List.sum_cons]

/-- A sum over items, of which the counted ones are those of another list: what is not counted
is worth nothing. -/
theorem sum_exchange {value : α → M} {counted : α → Bool} {l m : List α}
    (hvalue : ∀ x, counted x = false → value x = 0) (hl : (l.filter counted).Nodup) (hm : m.Nodup)
    (h : ∀ x, x ∈ m ↔ x ∈ l ∧ counted x = true) : (l.map value).sum = (m.map value).sum := by
  have hperm : (l.filter counted).Perm m := by
    refine (List.perm_ext_iff_of_nodup hl hm).mpr fun x => ?_
    rw [h, List.mem_filter]
  rw [← (hperm.map value).sum_eq, sum_filter]
  refine sum_congr fun x _ => ?_
  cases hx : counted x with
  | true => rfl
  | false => exact hvalue x hx

end Sums

/-! Parts of a list that a list of flags chooses, and what they add up to. -/

namespace Mask

variable {α β : Type}

def chosen : List α → List Bool → List α
  | a :: l, b :: bs => if b then a :: chosen l bs else chosen l bs
  | _, _ => []

theorem chosen_sublist (l : List α) (bs : List Bool) : (chosen l bs).Sublist l := by
  induction l generalizing bs with
  | nil => exact List.Sublist.refl _
  | cons a l ih =>
    cases bs with
    | nil => exact List.nil_sublist _
    | cons b bs =>
      cases b with
      | false => exact (ih bs).cons a
      | true => exact (ih bs).cons_cons a

theorem chosen_map (f : α → β) (l : List α) (bs : List Bool) :
    chosen (l.map f) bs = (chosen l bs).map f := by
  induction l generalizing bs with
  | nil => rfl
  | cons a l ih =>
    cases bs with
    | nil => rfl
    | cons b bs => cases b <;> simp [chosen, ih]

def weight (l : List Int) (bs : List Bool) : Int := (chosen l bs).sum

theorem weight_cons (a : Int) (l : List Int) (b : Bool) (bs : List Bool) :
    weight (a :: l) (b :: bs) = (if b then a else 0) + weight l bs := by
  cases b <;> simp [weight, chosen]

theorem weight_none (l : List Int) (n : Nat) : weight l (List.replicate n false) = 0 := by
  induction l generalizing n with
  | nil => rfl
  | cons a l ih =>
    cases n with
    | zero => rfl
    | succ n =>
      rw [List.replicate_succ, weight_cons, ih]
      rfl

theorem weight_all (l : List Int) : weight l (List.replicate l.length true) = l.sum := by
  induction l with
  | nil => rfl
  | cons a l ih =>
    rw [List.length_cons, List.replicate_succ, weight_cons, ih, List.sum_cons, if_pos rfl]

/-- One more item. -/
theorem weight_set_true {l : List Int} {bs : List Bool} {i : Nat} (hi : i < l.length)
    (hb : bs[i]? = some false) : weight l (bs.set i true) = weight l bs + l.getD i 0 := by
  induction l generalizing bs i with
  | nil => cases hi
  | cons a l ih =>
    cases bs with
    | nil => cases hb
    | cons b bs =>
      cases i with
      | zero =>
        obtain rfl := Option.some.inj hb
        rw [List.set_cons_zero, weight_cons, weight_cons, List.getD_cons_zero]
        simp only [if_true, Bool.false_eq_true, if_false]
        omega
      | succ i =>
        have hlt : i < l.length := Nat.lt_of_succ_lt_succ hi
        rw [List.set_cons_succ, weight_cons, weight_cons, List.getD_cons_succ, ih hlt hb]
        omega

theorem set_false {bs : List Bool} {i : Nat} (hb : bs[i]? = some false) : bs.set i false = bs := by
  obtain ⟨hlt, h⟩ := List.getElem?_eq_some_iff.mp hb
  rw [← h]
  exact List.set_getElem_self hlt

end Mask

/-! Order statistics: the entry at a place of the sorted list, by counting. -/

namespace Triangles

section Rank

variable {α : Type*} [LinearOrder α]

/-- In a sorted list the entry at place `i` is at least `x` if and only if at most `i` entries
are below `x`. -/
theorem le_get_sorted_iff {s : List α} (hs : s.Pairwise (· ≤ ·)) {i : Nat} (hi : i < s.length)
    (x : α) : x ≤ s[i] ↔ s.countP (fun y => decide (y < x)) ≤ i := by
  constructor
  · intro hx
    have habove : (s.drop i).countP (fun y => decide (y < x)) = 0 := by
      rw [List.countP_eq_zero]
      intro y hy
      obtain ⟨j, hj, rfl⟩ := List.mem_drop_iff_getElem.mp hy
      have hle : s[i] ≤ s[i + j] := by
        rcases Nat.eq_zero_or_pos j with rfl | hpos
        · exact le_refl _
        · exact List.pairwise_iff_getElem.mp hs i (i + j) hi (by omega) (by omega)
      simpa using hx.trans hle
    have hcount : s.countP (fun y => decide (y < x)) =
        (s.take i).countP (fun y => decide (y < x)) +
          (s.drop i).countP (fun y => decide (y < x)) := by
      rw [← List.countP_append, List.take_append_drop]
    rw [habove] at hcount
    have hlen := List.countP_le_length (p := fun y => decide (y < x)) (l := s.take i)
    rw [List.length_take] at hlen
    omega
  · intro hcount
    by_contra hx
    rw [not_le] at hx
    have hbelow : (s.take (i + 1)).countP (fun y => decide (y < x)) = (s.take (i + 1)).length := by
      rw [List.countP_eq_length]
      intro y hy
      obtain ⟨j, hj, rfl⟩ := List.mem_take_iff_getElem.mp hy
      have hle : s[j] ≤ s[i] := by
        rcases Nat.lt_or_ge j i with hlt | hge
        · exact List.pairwise_iff_getElem.mp hs j i (by omega) hi hlt
        · have hji : j = i := by omega
          subst hji
          exact le_refl _
      simpa using hle.trans_lt hx
    have hmono := (List.take_sublist (i + 1) s).countP_le (p := fun y => decide (y < x))
    rw [hbelow, List.length_take] at hmono
    omega

def ranked (l : List α) (i : Nat) (default : α) : α :=
  (l.insertionSort (· ≤ ·)).getD i default

theorem le_ranked_iff {l : List α} {i : Nat} (hi : i < l.length) (x d : α) :
    x ≤ ranked l i d ↔ l.countP (fun y => decide (y < x)) ≤ i := by
  have hi' : i < (l.insertionSort (· ≤ ·)).length := by rwa [List.length_insertionSort]
  unfold ranked
  rw [List.getD_eq_getElem _ _ hi', le_get_sorted_iff (List.pairwise_insertionSort _ l) hi',
    (List.perm_insertionSort (· ≤ ·) l).countP_eq]

/-- An entry that is not below `x`, added to a list whose ranked entry is at least `x`, leaves
the entry at the same place and at the next one at least `x`. -/
theorem ranked_cons {l : List α} {i j : Nat} {x d : α} (hi : i < l.length)
    (h : x ≤ ranked l i d) {y : α} (hy : x ≤ y) (hij : i ≤ j) (hj : j < l.length + 1) :
    x ≤ ranked (y :: l) j d := by
  rw [le_ranked_iff hi] at h
  rw [le_ranked_iff (by simpa using hj), List.countP_cons_of_neg (by simpa using hy)]
  omega

/-- The same when another entry leaves the list, and the list keeps its length. -/
theorem ranked_slide {l : List α} {i : Nat} {x d : α} (hi : i < l.length)
    (h : x ≤ ranked l i d) {y : α} (hy : x ≤ y) : x ≤ ranked (y :: l.dropLast) i d := by
  rw [le_ranked_iff hi] at h
  have hsub := (List.dropLast_sublist l).countP_le (p := fun y => decide (y < x))
  rw [le_ranked_iff (by simp; omega), List.countP_cons_of_neg (by simpa using hy)]
  omega

end Rank

end Triangles
