import Mathlib.Data.List.Forall2
import Mathlib.Data.List.NodupEquivFin

/-! Matching two lists in order: each entry of the first takes the first fitting entry left of
the second. -/

namespace Triangles

section Matching

variable {α β : Type*} (fits : α → β → Bool)

def matchesInOrder : List α → List β → Bool
  | [], _ => true
  | _ :: _, [] => false
  | a :: as, b :: bs => if fits a b then matchesInOrder as bs else matchesInOrder (a :: as) bs

/-- There is nothing to gain from passing over an entry that fits. -/
theorem matchesInOrder_iff (as : List α) (bs : List β) :
    matchesInOrder fits as bs = true ↔ List.SublistForall₂ (fun a b => fits a b = true) as bs := by
  induction bs generalizing as with
  | nil =>
    cases as with
    | nil => simp [matchesInOrder, List.SublistForall₂.nil]
    | cons a as =>
      simp only [matchesInOrder, Bool.false_eq_true, false_iff]
      intro h
      cases h
  | cons b bs ih =>
    cases as with
    | nil => simp [matchesInOrder, List.SublistForall₂.nil]
    | cons a as =>
      rw [matchesInOrder]
      split
      · rename_i hfit
        rw [ih]
        constructor
        · exact .cons hfit
        · intro h
          cases h with
          | cons _ htail => exact htail
          | cons_right hlater =>
            obtain ⟨l, hl, hsub⟩ := List.sublistForall₂_iff.mp hlater
            cases hl with
            | cons _ hrest =>
              exact List.sublistForall₂_iff.mpr ⟨_, hrest, (List.sublist_cons_self _ _).trans hsub⟩
      · rename_i hfit
        rw [ih]
        constructor
        · exact .cons_right
        · intro h
          cases h with
          | cons h _ => exact absurd h hfit
          | cons_right hlater => exact hlater

/-- A matching in order is a strictly increasing assignment of places. -/
theorem sublistForall₂_iff_strictMono (R : α → β → Prop) (as : List α) (bs : List β) :
    List.SublistForall₂ R as bs ↔
      ∃ f : Fin as.length → Fin bs.length, StrictMono f ∧ ∀ i, R (as.get i) (bs.get (f i)) := by
  rw [List.sublistForall₂_iff]
  constructor
  · rintro ⟨l, hall, hsub⟩
    obtain ⟨f, hf⟩ := List.sublist_iff_exists_fin_orderEmbedding_get_eq.mp hsub
    have hlen := hall.length_eq
    refine ⟨fun i => f (i.cast hlen), fun i j hij => f.strictMono (by simpa using hij), fun i => ?_⟩
    have hget := (List.forall₂_iff_get.mp hall).2 i i.isLt (hlen ▸ i.isLt)
    rw [← hf]
    exact hget
  · rintro ⟨f, hmono, hfits⟩
    refine ⟨List.ofFn fun i => bs.get (f i), ?_, ?_⟩
    · rw [List.forall₂_iff_get]
      refine ⟨by simp, fun i hi _ => ?_⟩
      simpa using hfits ⟨i, hi⟩
    · rw [List.sublist_iff_exists_fin_orderEmbedding_get_eq]
      refine ⟨(OrderEmbedding.ofStrictMono (fun i => f (i.cast (by simp))) ?_), fun i => ?_⟩
      · exact fun i j hij => hmono (by simpa using hij)
      · rw [List.get_ofFn]
        rfl

/-- The greedy run finds a strictly increasing assignment if there is one. -/
theorem matchesInOrder_iff_strictMono (as : List α) (bs : List β) :
    matchesInOrder fits as bs = true ↔
      ∃ f : Fin as.length → Fin bs.length,
        StrictMono f ∧ ∀ i, fits (as.get i) (bs.get (f i)) = true := by
  rw [matchesInOrder_iff]
  exact sublistForall₂_iff_strictMono _ as bs

theorem matchesInOrder_length {as : List α} {bs : List β} (h : matchesInOrder fits as bs = true) :
    as.length ≤ bs.length := by
  obtain ⟨l, hall, hsub⟩ := List.sublistForall₂_iff.mp ((matchesInOrder_iff fits as bs).mp h)
  rw [hall.length_eq]
  exact hsub.length_le

/-- With too few entries left there is no matching. -/
theorem matchesInOrder_few {as : List α} {bs : List β} (h : bs.length < as.length) :
    matchesInOrder fits as bs = false := by
  rw [Bool.eq_false_iff]
  intro hmatch
  exact absurd (matchesInOrder_length fits hmatch) (Nat.not_le_of_lt h)

variable {R : α → β → Prop} {as : List α} {bs : List β}

/-- Matchings in order are matchings in the reverse order. -/
theorem SublistForall₂.reverse (h : List.SublistForall₂ R as bs) :
    List.SublistForall₂ R as.reverse bs.reverse := by
  obtain ⟨l, hall, hsub⟩ := List.sublistForall₂_iff.mp h
  exact List.sublistForall₂_iff.mpr ⟨l.reverse, List.forall₂_reverse_iff.mpr hall, hsub.reverse⟩

/-- Every entry that is matched fits some entry. -/
theorem SublistForall₂.exists_fits (h : List.SublistForall₂ R as bs) {a : α} (ha : a ∈ as) :
    ∃ b ∈ bs, R a b := by
  induction h with
  | nil => cases ha
  | cons hr _ ih =>
    rcases List.mem_cons.mp ha with rfl | ha
    · exact ⟨_, List.mem_cons_self, hr⟩
    · obtain ⟨b, hb, hrb⟩ := ih ha
      exact ⟨b, List.mem_cons_of_mem _ hb, hrb⟩
  | cons_right _ ih =>
    obtain ⟨b, hb, hrb⟩ := ih ha
    exact ⟨b, List.mem_cons_of_mem _ hb, hrb⟩

/-- Another test that the matched entries pass as well. -/
theorem SublistForall₂.imp {S : α → β → Prop} (h : List.SublistForall₂ R as bs)
    (hRS : ∀ a ∈ as, ∀ b ∈ bs, R a b → S a b) : List.SublistForall₂ S as bs := by
  induction h with
  | nil => exact .nil
  | cons hr _ ih =>
    refine .cons (hRS _ List.mem_cons_self _ List.mem_cons_self hr) (ih fun a ha b hb => ?_)
    exact hRS a (List.mem_cons_of_mem _ ha) b (List.mem_cons_of_mem _ hb)
  | cons_right _ ih =>
    exact .cons_right (ih fun a ha b hb => hRS a ha b (List.mem_cons_of_mem _ hb))

end Matching

end Triangles
