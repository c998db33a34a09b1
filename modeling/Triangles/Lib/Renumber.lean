import Mathlib.Algebra.Order.Ring.Int
import Mathlib.Data.List.Nodup
import Mathlib.Data.List.Perm.Basic
import Mathlib.Tactic.Common

/-! Items that come one after the other and are given places in a row. Some have had a place before:
they are moved by the number of new places up to theirs. The others are put behind all so far. -/

namespace Renumber

structure Tally where
  next : Int := 0
  fresh : List Int := []

namespace Tally

/-- Where the item with the place `p` goes. -/
def moved (t : Tally) (p : Int) : Int := p + (t.fresh.countP fun o => decide (o ≤ p) : Nat)

def place (t : Tally) : Option Int → Int
  | none => t.next
  | some p => t.moved p

def visit (t : Tally) : Option Int → Tally
  | none => { next := t.next + 1, fresh := t.fresh ++ [t.next] }
  | some p => { t with next := max t.next (t.moved p + 1) }

def places (t : Tally) : List (Option Int) → List Int
  | [] => []
  | x :: l => t.place x :: (t.visit x).places l

variable {t : Tally} {p q : Int} {l : List (Option Int)}

/-- What is moved keeps its order. -/
theorem moved_lt (h : p < q) : t.moved p < t.moved q := by
  have hcount : t.fresh.countP (fun o => decide (o ≤ p)) ≤ t.fresh.countP fun o => decide (o ≤ q) := by
    refine List.countP_mono_left fun o _ ho => ?_
    rw [decide_eq_true_eq] at ho ⊢
    exact le_trans ho h.le
  unfold moved
  omega

theorem le_moved (t : Tally) (p : Int) : p ≤ t.moved p := by
  unfold moved
  omega

theorem next_le_visit (t : Tally) (x : Option Int) : t.next ≤ (t.visit x).next := by
  cases x with
  | none => exact Int.le_add_one le_rfl
  | some p => exact le_max_left _ _

theorem next_le_foldl (t : Tally) (l : List (Option Int)) : t.next ≤ (l.foldl visit t).next := by
  induction l generalizing t with
  | nil => exact le_rfl
  | cons x l ih => exact le_trans (next_le_visit t x) (ih (t.visit x))

/-- New places are behind what has been moved, so it does not move again. -/
theorem moved_visit (h : t.moved p < t.next) (x : Option Int) : (t.visit x).moved p = t.moved p := by
  cases x with
  | none =>
    have hle := le_moved t p
    have hnot : decide (t.next ≤ p) = false := decide_eq_false (by omega)
    simp only [moved, visit, List.countP_append, List.countP_singleton, hnot, Bool.false_eq_true,
      if_false, Nat.add_zero]
  | some q => rfl

theorem moved_foldl (h : t.moved p < t.next) (l : List (Option Int)) :
    (l.foldl visit t).moved p = t.moved p := by
  induction l generalizing t with
  | nil => rfl
  | cons x l ih =>
    have hsame := moved_visit h x
    rw [List.foldl_cons, ih (hsame ▸ lt_of_lt_of_le h (next_le_visit t x)), hsame]

/-- An item that has had a place is where the last tally moves it. -/
theorem place_some (t : Tally) (p : Int) (l : List (Option Int)) :
    t.place (some p) = (l.foldl visit (t.visit (some p))).moved p := by
  have hlt : (t.visit (some p)).moved p < (t.visit (some p)).next :=
    lt_of_lt_of_le (Int.lt_succ (t.moved p)) (le_max_right _ _)
  exact (moved_foldl hlt l).symm

theorem mem_zip_places (t : Tally) {x : Option Int} {n : Int} (h : (x, n) ∈ l.zip (t.places l))
    (hx : x = some p) : n = (l.foldl visit t).moved p := by
  induction l generalizing t with
  | nil => cases h
  | cons y l ih =>
    rw [places, List.zip_cons_cons] at h
    rcases List.mem_cons.mp h with h | h
    · obtain ⟨rfl, rfl⟩ := Prod.mk.inj h
      rw [hx]
      exact place_some t p l
    · exact ih (t.visit y) h

/-- The places are those of what is moved and the new ones. -/
theorem places_perm (t : Tally) (l : List (Option Int)) : (t.places l ++ t.fresh).Perm
    ((l.filterMap id).map (l.foldl visit t).moved ++ (l.foldl visit t).fresh) := by
  induction l generalizing t with
  | nil => exact List.Perm.refl _
  | cons x l ih =>
    cases x with
    | none =>
      rw [places, List.filterMap_cons_none rfl, List.foldl_cons]
      refine List.Perm.trans ?_ (ih (t.visit none))
      have hfresh : (t.visit none).fresh = t.fresh ++ [t.next] := rfl
      rw [hfresh, ← List.append_assoc, List.cons_append]
      exact (List.perm_append_singleton _ _).symm
    | some p =>
      have hmap : (some p :: l).filterMap id = p :: l.filterMap id := rfl
      rw [places, hmap, List.map_cons, List.foldl_cons, ← place_some]
      exact (ih (t.visit (some p))).cons _

structure Sorted (t : Tally) : Prop where
  fresh : t.fresh.Pairwise (· < ·)
  lt_next : ∀ o ∈ t.fresh, 0 ≤ o ∧ o < t.next
  nonneg : 0 ≤ t.next

theorem Sorted.visit (h : t.Sorted) (x : Option Int) : (t.visit x).Sorted := by
  have hnext := next_le_visit t x
  refine ⟨?_, ?_, le_trans h.nonneg hnext⟩
  · cases x with
    | none =>
      refine List.pairwise_append.mpr ⟨h.fresh, List.pairwise_singleton _ _, fun a ha b hb => ?_⟩
      rw [List.mem_singleton.mp hb]
      exact (h.lt_next a ha).2
    | some p => exact h.fresh
  · intro o ho
    cases x with
    | none =>
      rcases List.mem_append.mp ho with ho | ho
      · exact ⟨(h.lt_next o ho).1, lt_of_lt_of_le (h.lt_next o ho).2 hnext⟩
      · rw [List.mem_singleton.mp ho]
        exact ⟨h.nonneg, Int.lt_succ t.next⟩
    | some p => exact ⟨(h.lt_next o ho).1, lt_of_lt_of_le (h.lt_next o ho).2 hnext⟩

theorem Sorted.foldl (h : t.Sorted) (l : List (Option Int)) : (l.foldl Tally.visit t).Sorted := by
  induction l generalizing t with
  | nil => exact h
  | cons x l ih => exact ih (h.visit x)

theorem start_sorted : (Tally.mk 0 []).Sorted where
  fresh := List.Pairwise.nil
  lt_next o ho := by cases ho
  nonneg := le_rfl

/-- Places are not negative, and below the next one. -/
theorem places_range (h : t.Sorted) (hl : ∀ p, some p ∈ l → 0 ≤ p) :
    ∀ n ∈ t.places l, 0 ≤ n ∧ n < (l.foldl visit t).next := by
  induction l generalizing t with
  | nil => exact fun n hn => by cases hn
  | cons x l ih =>
    intro n hn
    rcases List.mem_cons.mp hn with rfl | hn
    · have hnext := next_le_foldl (t.visit x) l
      cases x with
      | none => exact ⟨h.nonneg, lt_of_lt_of_le (Int.lt_succ t.next) hnext⟩
      | some p =>
        have hp := hl p List.mem_cons_self
        refine ⟨le_trans hp (le_moved t p), lt_of_lt_of_le ?_ hnext⟩
        exact lt_of_lt_of_le (Int.lt_succ (t.moved p)) (le_max_right _ _)
    · exact ih (h.visit x) (fun p hp => hl p (List.mem_cons_of_mem x hp)) n hn

/-- No two items share a place when no item is moved to a new one. -/
theorem places_nodup_iff (hl : (l.filterMap id).Nodup) : ((Tally.mk 0 []).places l).Nodup ↔
    ∀ p, some p ∈ l → (l.foldl visit ⟨0, []⟩).moved p ∉ (l.foldl visit ⟨0, []⟩).fresh := by
  have hperm := places_perm ⟨0, []⟩ l
  rw [List.append_nil] at hperm
  have hsorted : (l.foldl visit ⟨0, []⟩).Sorted :=
    Sorted.foldl start_sorted l
  have hmoved : ((l.filterMap id).map (l.foldl visit ⟨0, []⟩).moved).Nodup := by
    refine hl.map fun p q heq => ?_
    rcases lt_trichotomy p q with hlt | rfl | hlt
    · exact absurd heq (moved_lt hlt).ne
    · rfl
    · exact absurd heq.symm (moved_lt hlt).ne
  have hfresh : (l.foldl visit ⟨0, []⟩).fresh.Nodup := hsorted.fresh.imp fun h => h.ne
  have hmem : ∀ p, p ∈ l.filterMap id ↔ some p ∈ l := by
    intro p
    rw [List.mem_filterMap]
    exact ⟨fun ⟨x, hx, heq⟩ => heq ▸ hx, fun h => ⟨some p, h, rfl⟩⟩
  rw [hperm.nodup_iff, List.nodup_append]
  constructor
  · rintro ⟨-, -, hdisjoint⟩ p hp hfresh
    exact hdisjoint _ (List.mem_map_of_mem ((hmem p).mpr hp)) _ hfresh rfl
  · intro hclear
    refine ⟨hmoved, hfresh, fun a ha b hb heq => ?_⟩
    obtain ⟨p, hp, rfl⟩ := List.mem_map.mp ha
    exact hclear p ((hmem p).mp hp) (heq ▸ hb)

end Tally

end Renumber
