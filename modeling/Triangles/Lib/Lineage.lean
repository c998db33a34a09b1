import Mathlib.Algebra.Order.Ring.Nat
import Mathlib.Order.Monotone.Basic
import Mathlib.Order.WellFounded
import Mathlib.Algebra.Order.Ring.Int
import Mathlib.Logic.Relation
import Mathlib.Order.Basic

/-! Places at growing distances: the first ones are next to each other, then each step back is
twice as long as the one before. -/

namespace StepBack

variable (dense : Nat)

def step (k : Nat) : Nat := 2 ^ (k - dense)

def place : Nat → Nat
  | 0 => 0
  | k + 1 => place k + step dense k

theorem step_pos (k : Nat) : 0 < step dense k := Nat.two_pow_pos _

theorem step_succ (k : Nat) :
    step dense (k + 1) = if dense < k + 1 then step dense k * 2 else step dense k := by
  unfold step
  split
  · rename_i h
    rw [show k + 1 - dense = (k - dense) + 1 by omega, Nat.pow_succ]
  · rename_i h
    rw [show k + 1 - dense = k - dense by omega]

theorem place_strictMono : StrictMono (place dense) :=
  strictMono_nat_of_lt_succ fun k => Nat.lt_add_of_pos_right (step_pos dense k)

theorem le_place (k : Nat) : k ≤ place dense k := (place_strictMono dense).le_apply

theorem place_of_le {k : Nat} (h : k ≤ dense) : place dense k = k := by
  induction k with
  | zero => rfl
  | succ k ih =>
    rw [place, ih (by omega), step, show k - dense = 0 by omega, Nat.pow_zero]

/-- The distance passes the dense part with the number of places. -/
theorem lt_place_iff (k : Nat) : dense < place dense k ↔ dense < k := by
  constructor
  · intro h
    by_contra hle
    rw [place_of_le dense (not_lt.mp hle)] at h
    exact hle h
  · exact fun h => h.trans_le (le_place dense k)

theorem step_le (k : Nat) : step dense k ≤ place dense k + 1 := by
  induction k with
  | zero => simp [step, place]
  | succ k ih =>
    rw [step_succ, place]
    split <;> omega

/-- The next place from a distance on is at most twice as far. -/
theorem exists_place (d : Nat) : ∃ k, d ≤ place dense k ∧ place dense k ≤ 2 * d := by
  induction d with
  | zero => exact ⟨0, le_refl _, le_refl _⟩
  | succ d ih =>
    obtain ⟨k, hfrom, hto⟩ := ih
    rcases Nat.lt_or_eq_of_le hfrom with hlt | rfl
    · exact ⟨k, hlt, by omega⟩
    · have hstep := step_le dense k
      have hpos := step_pos dense k
      refine ⟨k + 1, ?_, ?_⟩ <;> rw [place] <;> omega

end StepBack

/-! Rooted trees by their parent function, with a height that grows by one from parent to child. -/

namespace Lineage

variable {α : Type}

structure Tree (α : Type) where
  parent : α → Option α
  height : α → Int
  root : α
  height_parent : ∀ {x p}, parent x = some p → height x = height p + 1
  rooted : ∀ x, Relation.ReflTransGen (fun x p => parent x = some p) x root

namespace Tree

variable {t : Tree α} {a b c f p x : α} {l : List α}

def Anc (t : Tree α) (a x : α) : Prop := Relation.ReflTransGen (fun x p => t.parent x = some p) x a

@[refl] theorem Anc.refl (x : α) : t.Anc x x := Relation.ReflTransGen.refl

theorem Anc.trans (h : t.Anc a b) (h' : t.Anc b c) : t.Anc a c := Relation.ReflTransGen.trans h' h

theorem anc_parent (h : t.parent x = some p) : t.Anc p x := Relation.ReflTransGen.single h

/-- A proper ancestor is one of the parent. -/
theorem Anc.up (h : t.Anc a x) (hne : a ≠ x) : ∃ p, t.parent x = some p ∧ t.Anc a p := by
  rcases Relation.ReflTransGen.cases_head h with heq | hstep
  · exact absurd heq.symm hne
  · exact hstep

theorem Anc.height_le (h : t.Anc a x) : t.height a ≤ t.height x := by
  induction h using Relation.ReflTransGen.head_induction_on with
  | refl => exact le_rfl
  | head hparent _ ih =>
    have hstep := t.height_parent hparent
    omega

theorem root_le (t : Tree α) (x : α) : t.height t.root ≤ t.height x := Anc.height_le (t.rooted x)

theorem Anc.eq_of_height (h : t.Anc a x) (hle : t.height x ≤ t.height a) : a = x := by
  by_contra hne
  obtain ⟨p, hparent, hanc⟩ := h.up hne
  have hstep := t.height_parent hparent
  have hup := hanc.height_le
  omega

/-- The ancestors of one node are on one line. -/
theorem Anc.total (ha : t.Anc a x) (hb : t.Anc b x) (hle : t.height a ≤ t.height b) : t.Anc a b := by
  induction hb using Relation.ReflTransGen.head_induction_on with
  | refl => exact ha
  | head hparent hup ih =>
    rename_i x y
    refine ih ?_
    have hne : a ≠ x := by
      rintro rfl
      have hstep := t.height_parent hparent
      have hheight : t.height b ≤ t.height y := Anc.height_le hup
      omega
    obtain ⟨q, hq, hanc⟩ := ha.up hne
    rw [hparent] at hq
    cases hq
    exact hanc

structure IsLowest (t : Tree α) (f a b : α) : Prop where
  left : t.Anc f a
  right : t.Anc f b
  lowest : ∀ c, t.Anc c a → t.Anc c b → t.Anc c f

theorem IsLowest.unique {g : α} (h : t.IsLowest f a b) (h' : t.IsLowest g a b) : f = g :=
  (h'.lowest f h.left h.right).eq_of_height (h.lowest g h'.left h'.right).height_le

/-- The nodes from `x` down to, but without, `f`. -/
inductive Path (t : Tree α) (f : α) : α → List α → Prop where
  | here : Path t f f []
  | step {x p : α} {l : List α} (hparent : t.parent x = some p) (h : Path t f p l) : Path t f x (x :: l)

theorem Path.anc (h : t.Path f x l) : t.Anc f x := by
  induction h with
  | here => rfl
  | step hparent _ ih => exact ih.trans (anc_parent hparent)

/-- A path of the parent does not lead back to the node. -/
theorem Path.not_parent (hparent : t.parent f = some p) : ¬ t.Path f p l := fun h => by
  have hstep := t.height_parent hparent
  have hle := h.anc.height_le
  omega

theorem Path.unique {m : List α} (h : t.Path f x l) (h' : t.Path f x m) : l = m := by
  induction h generalizing m with
  | here =>
    cases h' with
    | here => rfl
    | step hparent h' => exact absurd h' (Path.not_parent hparent)
  | step hparent h ih =>
    cases h' with
    | here => exact absurd h (Path.not_parent hparent)
    | step hparent' h' =>
      rw [hparent] at hparent'
      cases hparent'
      rw [ih h']

theorem Path.mem_iff (h : t.Path f x l) : b ∈ l ↔ t.Anc b x ∧ t.Anc f b ∧ b ≠ f := by
  induction h with
  | here =>
    simp only [List.not_mem_nil, false_iff, not_and, not_not]
    exact fun hb hf => (hb.eq_of_height hf.height_le)
  | step hparent h ih =>
    rename_i x p l
    have hstep := t.height_parent hparent
    rw [List.mem_cons, ih]
    constructor
    · rintro (rfl | ⟨hb, hf, hne⟩)
      · refine ⟨.refl _, h.anc.trans (anc_parent hparent), ?_⟩
        rintro rfl
        have hheight := h.anc.height_le
        omega
      · exact ⟨hb.trans (anc_parent hparent), hf, hne⟩
    · rintro ⟨hb, hf, hne⟩
      by_cases hbx : b = x
      · exact .inl hbx
      · obtain ⟨q, hq, hanc⟩ := hb.up hbx
        rw [hparent] at hq
        cases hq
        exact .inr ⟨hanc, hf, hne⟩

theorem Path.decreasing (h : t.Path f x l) : l.Pairwise fun y z => t.height z < t.height y := by
  induction h with
  | here => exact List.Pairwise.nil
  | step hparent h ih =>
    refine List.Pairwise.cons (fun b hb => ?_) ih
    have hstep := t.height_parent hparent
    have hheight := (h.mem_iff.mp hb).1.height_le
    omega

end Tree

end Lineage
