import Mathlib.Data.List.Induction
import Mathlib.Logic.Function.Basic
import Mathlib.Tactic.Common

/-! Singly linked lists in a heap: the places that the links visit from a start. -/

namespace Linked

variable {ι : Type}

/-- From `start` the links visit `l` and end there. -/
def Visits (next : ι → Option ι) : ι → List ι → Prop
  | start, [] => next start = none
  | start, x :: l => next start = some x ∧ Visits next x l

/-- The last place before the links leave `a`. -/
def lastOf (start : ι) (a : List ι) : ι := a.getLastD start

@[simp] theorem lastOf_nil (start : ι) : lastOf start [] = start := rfl

@[simp] theorem lastOf_cons (start x : ι) (a : List ι) : lastOf start (x :: a) = lastOf x a := by
  exact List.getLastD_cons

@[simp] theorem lastOf_concat (start x : ι) (a : List ι) : lastOf start (a ++ [x]) = x := by
  simp [lastOf]

theorem lastOf_mem (start : ι) (a : List ι) : lastOf start a ∈ start :: a := by
  induction a generalizing start with
  | nil => simp
  | cons x a ih =>
    rw [lastOf_cons]
    exact List.mem_cons_of_mem _ (ih x)

theorem lastOf_append (start : ι) (a b : List ι) : lastOf start (a ++ b) = lastOf (lastOf start a) b := by
  induction a generalizing start with
  | nil => rfl
  | cons x a ih => rw [List.cons_append, lastOf_cons, lastOf_cons, ih]

/-- The last place of a sparser list is a place of the denser one, or the start of both. -/
theorem filter_split (start : ι) (sparse dense : ι → Bool) (h : ∀ x, sparse x → dense x)
    (l : List ι) :
    ∃ c d, l.filter dense = c ++ d ∧ lastOf start c = lastOf start (l.filter sparse) := by
  induction l using List.reverseRecOn with
  | nil => exact ⟨[], [], rfl, rfl⟩
  | append_singleton l x ih =>
    obtain ⟨c, d, hcd, hlast⟩ := ih
    simp only [List.filter_append]
    by_cases hx : sparse x = true
    · refine ⟨l.filter dense ++ [x], [], by simp [h x hx], ?_⟩
      simp [hx]
    · refine ⟨c, d ++ [x].filter dense, by rw [hcd, List.append_assoc], ?_⟩
      simp [hx, hlast]

variable {next : ι → Option ι} {start : ι} {a b : List ι}

/-- A list of links in two parts: the second starts at the end of the first. -/
theorem visits_append :
    Visits next start (a ++ b) ↔
      (∀ c x d, a = c ++ x :: d → next (lastOf start c) = some x) ∧
        Visits next (lastOf start a) b := by
  induction a generalizing start with
  | nil => simp
  | cons y a ih =>
    rw [List.cons_append, Visits, ih, lastOf_cons, ← and_assoc]
    refine and_congr_left fun _ => ?_
    constructor
    · rintro ⟨hy, h⟩ c x d he
      cases c with
      | nil =>
        obtain ⟨rfl, rfl⟩ := List.cons.inj he
        exact hy
      | cons z c =>
        obtain ⟨rfl, rfl⟩ := List.cons.inj he
        rw [lastOf_cons]
        exact h c x d rfl
    · intro h
      refine ⟨h [] y a rfl, fun c x d he => ?_⟩
      have := h (y :: c) x d (by rw [he, List.cons_append])
      rwa [lastOf_cons] at this

/-- What follows the end of the first part. -/
theorem Visits.next_last (h : Visits next start (a ++ b)) :
    next (lastOf start a) = b.head? := by
  have hb := (visits_append.mp h).2
  cases b with
  | nil => exact hb
  | cons x b => exact hb.1

/-- Links outside the places visited do not matter. -/
theorem Visits.congr {next' : ι → Option ι} {l : List ι} (h : Visits next start l)
    (hsame : ∀ x ∈ start :: l, next' x = next x) : Visits next' start l := by
  induction l generalizing start with
  | nil =>
    rw [Visits, hsame start (by simp)]
    exact h
  | cons y l ih =>
    refine ⟨?_, ih h.2 fun x hx => hsame x (List.mem_cons_of_mem _ hx)⟩
    rw [hsame start (by simp)]
    exact h.1

/-- A new place spliced in between two parts. -/
theorem Visits.splice [DecidableEq ι] {x : ι} (h : Visits next start (a ++ b))
    (hnodup : (start :: (a ++ b)).Nodup) (hx : x ∉ start :: (a ++ b)) :
    Visits (Function.update (Function.update next x (next (lastOf start a)))
      (lastOf start a) (some x)) start (a ++ x :: b) := by
  induction a generalizing start with
  | nil =>
    have hne : x ≠ start := fun he => hx (by simp [he])
    simp only [List.nil_append, lastOf_nil] at *
    refine ⟨by simp, ?_⟩
    -- the new place takes over what the start was linked to
    cases b with
    | nil =>
      rw [Visits, Function.update_of_ne hne, Function.update_self]
      exact h
    | cons y b =>
      refine ⟨?_, ?_⟩
      · rw [Function.update_of_ne hne, Function.update_self]
        exact h.1
      · apply h.2.congr
        intro z hz
        have hzs : z ≠ start := fun he => (List.nodup_cons.mp hnodup).1 (he ▸ hz)
        have hzx : z ≠ x := fun he => hx (List.mem_cons_of_mem _ (he ▸ hz))
        rw [Function.update_of_ne hzs, Function.update_of_ne hzx]
  | cons y a ih =>
    rw [lastOf_cons]
    have hy : y ∉ start :: [] := by
      intro he
      simp only [List.mem_singleton] at he
      exact (List.nodup_cons.mp hnodup).1 (by simp [he])
    have hlast : start ≠ lastOf y a := by
      intro he
      apply (List.nodup_cons.mp hnodup).1
      rw [he]
      have hm := lastOf_mem y a
      simp only [List.cons_append, List.mem_cons, List.mem_append] at hm ⊢
      tauto
    have hsx : start ≠ x := fun he => hx (by simp [he])
    refine ⟨?_, ih h.2 (List.nodup_cons.mp hnodup).2 fun he => hx (List.mem_cons_of_mem _ he)⟩
    rw [Function.update_of_ne hlast, Function.update_of_ne hsx]
    exact h.1

def walk (next : ι → Option ι) (test : ι → Bool) : Nat → ι → ι
  | 0, x => x
  | fuel + 1, x =>
    match next x with
    | none => x
    | some y => if test y then walk next test fuel y else x

/-- The walk ends where the test first fails. -/
theorem walk_eq {test : ι → Bool} {fuel : Nat} (h : Visits next start (a ++ b))
    (hfuel : a.length ≤ fuel) (ha : ∀ x ∈ a, test x = true) (hb : ∀ x ∈ b.head?, test x = false) :
    walk next test fuel start = lastOf start a := by
  induction a generalizing start fuel with
  | nil =>
    have hstart := h.next_last (a := [])
    rw [lastOf_nil] at hstart
    cases fuel with
    | zero => rfl
    | succ fuel =>
      rw [walk, hstart]
      cases b with
      | nil => rfl
      | cons y b => simp [hb y (by simp)]
  | cons y a ih =>
    cases fuel with
    | zero => simp at hfuel
    | succ fuel =>
      rw [walk, h.1, lastOf_cons]
      simp only [ha y (by simp), if_true]
      apply ih h.2 (by simpa using hfuel)
      exact fun x hx => ha x (List.mem_cons_of_mem _ hx)

end Linked
