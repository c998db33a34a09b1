import Mathlib.Data.List.TakeWhile
import Mathlib.Order.Basic
import Mathlib.Tactic.Common

/-! A cursor over a list in ascending order, and the search by halves for where it is to stand. -/

namespace Cursors

inductive Move (β : Type) where
  | first
  | last
  | seek (target : β)
  | next
  | prev

section Cursor

variable {α β : Type} (below : α → β → Bool) (l : List α)

def lowerBound (target : β) : Option Nat :=
  if (l.takeWhile (below · target)).length < l.length then some (l.takeWhile (below · target)).length
  else none

/-- Where a cursor stands after a move; it stands nowhere behind either end. It is moved to the next
or the previous item only from one. -/
def step (place : Option Nat) : Move β → Option Nat
  | .first => if 0 < l.length then some 0 else none
  | .last => if 0 < l.length then some (l.length - 1) else none
  | .seek target => lowerBound below l target
  | .next => place.bind fun i => if i + 1 < l.length then some (i + 1) else none
  | .prev => place.bind fun i => if i = 0 then none else some (i - 1)

variable {below l}

theorem length_takeWhile {p : α → Bool} {i : Nat} (hbefore : ∀ j < i, ∀ a, l[j]? = some a → p a = true)
    (hi : i ≤ l.length) (hat : ∀ a, l[i]? = some a → p a = false) : (l.takeWhile p).length = i := by
  induction l generalizing i with
  | nil => exact (Nat.le_zero.mp hi).symm
  | cons a l ih =>
    cases i with
    | zero =>
      rw [List.takeWhile_cons_of_neg (by rw [hat a rfl]; exact Bool.false_ne_true)]
      rfl
    | succ i =>
      rw [List.takeWhile_cons_of_pos (hbefore 0 (Nat.succ_pos i) a rfl), List.length_cons]
      refine congrArg Nat.succ (ih (fun j hj b hb => ?_) (Nat.le_of_succ_le_succ hi) hat)
      exact hbefore (j + 1) (Nat.succ_lt_succ hj) b hb

theorem lowerBound_some {target : β} {a : α} {i : Nat}
    (hbefore : ∀ j < i, ∀ b, l[j]? = some b → below b target = true) (hi : l[i]? = some a)
    (hat : below a target = false) : lowerBound below l target = some i := by
  have hlt := (List.getElem?_eq_some_iff.mp hi).1
  have hlen : (l.takeWhile (below · target)).length = i := by
    refine length_takeWhile hbefore hlt.le fun b hb => ?_
    rw [hi] at hb
    obtain rfl := Option.some.inj hb
    exact hat
  rw [lowerBound, hlen, if_pos hlt]

theorem lowerBound_none {target : β} (hall : ∀ a ∈ l, below a target = true) :
    lowerBound below l target = none := by
  have hlen : (l.takeWhile (below · target)).length = l.length := by
    rw [List.takeWhile_eq_self_iff.mpr hall]
  rw [lowerBound, hlen, if_neg (Nat.lt_irrefl _)]

/-- What a list begins with, where it does not begin again. -/
theorem takeWhile_place {p : α → Bool} (hdown : l.Pairwise fun a b => p b = true → p a = true) {j : Nat}
    (hj : j < l.length) : p l[j] = true ↔ j < (l.takeWhile p).length := by
  induction l generalizing j with
  | nil => exact absurd hj (Nat.not_lt_zero j)
  | cons a l ih =>
    obtain ⟨ha, hl⟩ := List.pairwise_cons.mp hdown
    by_cases hp : p a = true
    · rw [List.takeWhile_cons_of_pos hp, List.length_cons]
      cases j with
      | zero => simp [hp]
      | succ j => simp [ih hl (Nat.lt_of_succ_lt_succ hj)]
    · rw [List.takeWhile_cons_of_neg hp]
      cases j with
      | zero => simp [hp]
      | succ j =>
        have hin : j < l.length := Nat.lt_of_succ_lt_succ hj
        have hlater : ¬ p l[j] = true := fun hpj => hp (ha _ (List.getElem_mem hin) hpj)
        simp [hlater]

end Cursor

/-! The cursor in the order of the keys, and what moves like one. -/

section Order

variable {κ ν : Type}

def Ascending (cmp : κ → κ → Ordering) (l : List (κ × ν)) : Prop :=
  l.Pairwise fun a b => cmp a.1 b.1 = .lt

def keyBelow (cmp : κ → κ → Ordering) (e : κ × ν) (target : κ) : Bool := cmp e.1 target = .lt

/-- The item of a kind that no other is to a side of, the left one or the right one, if there is one. -/
def Best (cmp : κ → κ → Ordering) (side : Ordering) (p : κ × ν → Prop) : Option (κ × ν) → Prop
  | some x => p x ∧ ∀ y, p y → cmp y.1 x.1 ≠ side
  | none => ∀ y, ¬ p y

def Moved (cmp : κ → κ → Ordering) (l : List (κ × ν)) :
    Option (κ × ν) → Move κ → Option (κ × ν) → Prop
  | _, .first, o => Best cmp .lt (· ∈ l) o
  | _, .last, o => Best cmp .gt (· ∈ l) o
  | _, .seek target, o => Best cmp .lt (fun y => y ∈ l ∧ cmp y.1 target ≠ .lt) o
  | some x, .next, o => Best cmp .lt (fun y => y ∈ l ∧ cmp x.1 y.1 = .lt) o
  | some x, .prev, o => Best cmp .gt (fun y => y ∈ l ∧ cmp y.1 x.1 = .lt) o
  | none, .next, o => o = none
  | none, .prev, o => o = none

variable {cmp : κ → κ → Ordering} {l : List (κ × ν)}

theorem Best.congr {side : Ordering} {p q : κ × ν → Prop} {o : Option (κ × ν)} (h : Best cmp side p o)
    (hpq : ∀ y, p y ↔ q y) : Best cmp side q o := by
  cases o with
  | none => exact fun y hy => h y ((hpq y).mpr hy)
  | some x => exact ⟨(hpq x).mp h.1, fun y hy => h.2 y ((hpq y).mpr hy)⟩

section Sorted

variable [Std.TransCmp cmp]

theorem Ascending.lt_iff (hl : Ascending cmp l) {i j : Nat} (hi : i < l.length) (hj : j < l.length) :
    cmp l[i].1 l[j].1 = .lt ↔ i < j := by
  have hmono := List.pairwise_iff_getElem.mp hl
  refine ⟨fun hlt => ?_, hmono i j hi hj⟩
  by_contra hle
  obtain hji | rfl := Nat.lt_or_eq_of_le (Nat.not_lt.mp hle)
  · exact Std.OrientedCmp.not_lt_of_lt hlt (hmono j i hj hi hji)
  · exact Std.OrientedCmp.not_lt_of_lt hlt hlt

theorem Ascending.eq_of_not_lt (hl : Ascending cmp l) {x y : κ × ν} (hx : x ∈ l) (hy : y ∈ l)
    (hxy : cmp x.1 y.1 ≠ .lt) (hyx : cmp y.1 x.1 ≠ .lt) : x = y := by
  obtain ⟨i, hi, rfl⟩ := List.mem_iff_getElem.mp hx
  obtain ⟨j, hj, rfl⟩ := List.mem_iff_getElem.mp hy
  rw [Ne, hl.lt_iff hi hj] at hxy
  rw [Ne, hl.lt_iff hj hi] at hyx
  have hij : i = j := by omega
  subst hij
  rfl

theorem Best.unique (hl : Ascending cmp l) {side : Ordering} (hside : side ≠ .eq) {p : κ × ν → Prop}
    (hp : ∀ y, p y → y ∈ l) {o o' : Option (κ × ν)} (h : Best cmp side p o) (h' : Best cmp side p o') :
    o = o' := by
  match o, o', h, h' with
  | none, none, _, _ => rfl
  | none, some x, h, h' => exact absurd h'.1 (h x)
  | some x, none, h, h' => exact absurd h.1 (h' x)
  | some x, some y, h, h' =>
    have hxy := h'.2 x h.1
    have hyx := h.2 y h'.1
    refine congrArg some ?_
    cases side with
    | lt => exact hl.eq_of_not_lt (hp x h.1) (hp y h'.1) hxy hyx
    | eq => exact absurd rfl hside
    | gt =>
      exact hl.eq_of_not_lt (hp x h.1) (hp y h'.1)
        (fun hlt => hyx (Std.OrientedCmp.gt_of_lt hlt)) (fun hlt => hxy (Std.OrientedCmp.gt_of_lt hlt))

/-- The item of a place is the least of those from the place on. -/
theorem Ascending.least (hl : Ascending cmp l) {p : κ × ν → Prop} (i : Nat)
    (hp : ∀ j (hj : j < l.length), p l[j] ↔ i ≤ j) (hmem : ∀ y, p y → y ∈ l) :
    Best cmp .lt p l[i]? := by
  by_cases hi : i < l.length
  · rw [List.getElem?_eq_getElem hi]
    refine ⟨(hp i hi).mpr (Nat.le_refl i), fun y hy hlt => ?_⟩
    obtain ⟨j, hj, rfl⟩ := List.mem_iff_getElem.mp (hmem y hy)
    have hij := (hp j hj).mp hy
    rw [hl.lt_iff hj hi] at hlt
    omega
  · rw [List.getElem?_eq_none (Nat.not_lt.mp hi)]
    intro y hy
    obtain ⟨j, hj, rfl⟩ := List.mem_iff_getElem.mp (hmem y hy)
    have hij := (hp j hj).mp hy
    omega

/-- The item in front of a place is the greatest of those up to there. -/
theorem Ascending.greatest (hl : Ascending cmp l) {p : κ × ν → Prop} {i : Nat} (hi : i ≤ l.length)
    (hp : ∀ j (hj : j < l.length), p l[j] ↔ j < i) (hmem : ∀ y, p y → y ∈ l) :
    Best cmp .gt p (if i = 0 then none else l[i - 1]?) := by
  by_cases hzero : i = 0
  · rw [if_pos hzero]
    intro y hy
    obtain ⟨j, hj, rfl⟩ := List.mem_iff_getElem.mp (hmem y hy)
    have hij := (hp j hj).mp hy
    omega
  · have hlt : i - 1 < l.length := by omega
    rw [if_neg hzero, List.getElem?_eq_getElem hlt]
    refine ⟨(hp _ hlt).mpr (by omega), fun y hy hbelow => ?_⟩
    obtain ⟨j, hj, rfl⟩ := List.mem_iff_getElem.mp (hmem y hy)
    have hij := (hp j hj).mp hy
    rw [Std.OrientedCmp.gt_iff_lt, hl.lt_iff hlt hj] at hbelow
    omega

/-- What a cursor step does to the item at the cursor. -/
theorem step_moved (hl : Ascending cmp l) {place : Option Nat}
    (hplace : ∀ i, place = some i → i < l.length) (m : Move κ) :
    Moved cmp l (place.bind (l[·]?)) m ((step (keyBelow cmp) l place m).bind (l[·]?)) := by
  cases m with
  | first =>
    have hleast := hl.least (p := (· ∈ l)) 0 (fun j hj => ⟨fun _ => Nat.zero_le j, fun _ =>
      List.getElem_mem hj⟩) fun _ hy => hy
    rw [step]
    split_ifs with hpos
    · exact hleast
    · rw [List.getElem?_eq_none (Nat.not_lt.mp hpos)] at hleast
      exact hleast
  | last =>
    have hgreatest := hl.greatest (p := (· ∈ l)) (Nat.le_refl _) (fun j hj => ⟨fun _ => hj, fun _ =>
      List.getElem_mem hj⟩) fun _ hy => hy
    rw [step]
    split_ifs with hpos
    · rw [if_neg (by omega)] at hgreatest
      exact hgreatest
    · rw [if_pos (by omega)] at hgreatest
      exact hgreatest
  | seek target =>
    have hdown : l.Pairwise fun a b => keyBelow cmp b target = true → keyBelow cmp a target = true :=
      hl.imp fun hab hb => decide_eq_true (Std.TransCmp.lt_trans hab (of_decide_eq_true hb))
    have hleast := hl.least (p := fun y => y ∈ l ∧ cmp y.1 target ≠ .lt)
      (l.takeWhile (keyBelow cmp · target)).length (fun j hj => by
        have hplace := takeWhile_place hdown hj
        rw [keyBelow, decide_eq_true_iff] at hplace
        rw [Ne, hplace, Nat.not_lt, and_iff_right (List.getElem_mem hj)]) fun _ hy => hy.1
    rw [step, lowerBound]
    split_ifs with hlt
    · exact hleast
    · rw [List.getElem?_eq_none (Nat.not_lt.mp hlt)] at hleast
      exact hleast
  | next =>
    cases place with
    | none => rfl
    | some i =>
      have hi := hplace i rfl
      have hleast := hl.least (p := fun y => y ∈ l ∧ cmp l[i].1 y.1 = .lt) (i + 1) (fun j hj => by
        rw [hl.lt_iff hi hj, and_iff_right (List.getElem_mem hj), Nat.succ_le_iff]) fun _ hy => hy.1
      simp only [step, Option.bind_some, List.getElem?_eq_getElem hi]
      split_ifs with hlt
      · exact hleast
      · rw [List.getElem?_eq_none (Nat.not_lt.mp hlt)] at hleast
        exact hleast
  | prev =>
    cases place with
    | none => rfl
    | some i =>
      have hi := hplace i rfl
      have hgreatest := hl.greatest (p := fun y => y ∈ l ∧ cmp y.1 l[i].1 = .lt) hi.le (fun j hj => by
        rw [hl.lt_iff hj hi, and_iff_right (List.getElem_mem hj)]) fun _ hy => hy.1
      simp only [step, Option.bind_some, List.getElem?_eq_getElem hi]
      split_ifs with hzero
      · rw [if_pos hzero] at hgreatest
        exact hgreatest
      · rw [if_neg hzero] at hgreatest
        exact hgreatest

theorem Moved.unique (hl : Ascending cmp l) {o a b : Option (κ × ν)} {m : Move κ}
    (ha : Moved cmp l o m a) (hb : Moved cmp l o m b) : a = b := by
  cases m with
  | first => exact Best.unique hl (by decide) (fun _ hy => hy) ha hb
  | last => exact Best.unique hl (by decide) (fun _ hy => hy) ha hb
  | seek target => exact Best.unique hl (by decide) (fun _ hy => hy.1) ha hb
  | next =>
    cases o with
    | none => exact Eq.trans ha (Eq.symm hb)
    | some x => exact Best.unique hl (by decide) (fun _ hy => hy.1) ha hb
  | prev =>
    cases o with
    | none => exact Eq.trans ha (Eq.symm hb)
    | some x => exact Best.unique hl (by decide) (fun _ hy => hy.1) ha hb

theorem step_lt {below : κ × ν → κ → Bool} {place : Option Nat}
    (hplace : ∀ i, place = some i → i < l.length) (m : Move κ) :
    ∀ i, step below l place m = some i → i < l.length := by
  intro i hi
  cases m with
  | first =>
    rw [step] at hi
    split_ifs at hi
    cases hi
    assumption
  | last =>
    rw [step] at hi
    split_ifs at hi
    cases hi
    omega
  | seek target =>
    rw [step, lowerBound] at hi
    split_ifs at hi
    cases hi
    assumption
  | next =>
    cases place with
    | none => cases hi
    | some j =>
      rw [step, Option.bind_some] at hi
      split_ifs at hi
      cases hi
      assumption
  | prev =>
    cases place with
    | none => cases hi
    | some j =>
      have hj := hplace j rfl
      rw [step, Option.bind_some] at hi
      split_ifs at hi
      cases hi
      omega

end Sorted

/-! What moves like a cursor. -/

structure Iterator (σ κ ν ε : Type) where
  move : σ → Move κ → σ
  entry : σ → Option (κ × ν)
  status : σ → ε

structure Follows {σ ε : Type} (it : Iterator σ κ ν ε) (ok : ε) (cmp : κ → κ → Ordering)
    (l : List (κ × ν)) (I : σ → Prop) : Prop where
  status : ∀ {s}, I s → it.status s = ok
  mem : ∀ {s}, I s → ∀ {x}, it.entry s = some x → x ∈ l
  keep : ∀ {s}, I s → ∀ m, I (it.move s m)
  moved : ∀ {s}, I s → ∀ m, Moved cmp l (it.entry s) m (it.entry (it.move s m))

variable {σ ε : Type} {it : Iterator σ κ ν ε} {ok : ε} {I : σ → Prop}

def Placed (it : Iterator σ κ ν ε) (l : List (κ × ν)) (s : σ) (place : Option Nat) : Prop :=
  it.entry s = place.bind (l[·]?) ∧ ∀ i, place = some i → i < l.length

theorem Follows.placed (h : Follows it ok cmp l I) {s : σ} (hs : I s) : ∃ place, Placed it l s place := by
  cases hentry : it.entry s with
  | none => exact ⟨none, hentry, fun i hi => by cases hi⟩
  | some x =>
    obtain ⟨i, hi, rfl⟩ := List.mem_iff_getElem.mp (h.mem hs hentry)
    refine ⟨some i, ?_, fun j hj => ?_⟩
    · rw [hentry, Option.bind_some, List.getElem?_eq_getElem hi]
    · cases hj
      exact hi

theorem Follows.step [Std.TransCmp cmp] (h : Follows it ok cmp l I) (hl : Ascending cmp l) {s : σ}
    (hs : I s) {place : Option Nat} (hplace : Placed it l s place) (m : Move κ) :
    Placed it l (it.move s m) (step (keyBelow cmp) l place m) := by
  obtain ⟨hentry, hin⟩ := hplace
  have hmoved := h.moved hs m
  rw [hentry] at hmoved
  exact ⟨hmoved.unique hl (step_moved hl hin m), step_lt hin m⟩

/-- However it is moved, an iterator that goes over a list moves like the cursor over the list. -/
theorem Follows.run [Std.TransCmp cmp] (h : Follows it ok cmp l I) (hl : Ascending cmp l) {s : σ}
    (hs : I s) (hnone : it.entry s = none) (moves : List (Move κ)) :
    I (moves.foldl it.move s) ∧ it.entry (moves.foldl it.move s) =
      (moves.foldl (Cursors.step (keyBelow cmp) l) none).bind (l[·]?) := by
  have hplace : Placed it l s none := ⟨hnone, fun i hi => by cases hi⟩
  clear hnone
  generalize (none : Option Nat) = place at hplace
  induction moves generalizing s place with
  | nil => exact ⟨hs, hplace.1⟩
  | cons m moves ih => exact ih (h.keep hs m) _ (h.step hl hs hplace m)

end Order

/-! The search by halves. -/

def bisect (p : Nat → Bool) : Nat → Nat → Nat → Nat
  | 0, left, _ => left
  | rounds + 1, left, right =>
    if left < right then
      if p ((left + right + 1) / 2) then bisect p rounds ((left + right + 1) / 2) right
      else bisect p rounds left ((left + right + 1) / 2 - 1)
    else left

theorem bisect_spec {p : Nat → Bool} {rounds left right : Nat}
    (hdown : ∀ i j, i ≤ j → j ≤ right → p j = true → p i = true) (hle : left ≤ right)
    (hrounds : right - left ≤ rounds) :
    left ≤ bisect p rounds left right ∧ bisect p rounds left right ≤ right ∧
      (bisect p rounds left right = left ∨ p (bisect p rounds left right) = true) ∧
      ∀ j, bisect p rounds left right < j → j ≤ right → p j = false := by
  induction rounds generalizing left right with
  | zero =>
    refine ⟨Nat.le_refl _, hle, .inl rfl, fun j hj hjr => ?_⟩
    rw [bisect] at hj
    omega
  | succ rounds ih =>
    rw [bisect]
    by_cases hlt : left < right
    · rw [if_pos hlt]
      cases hmid : p ((left + right + 1) / 2) with
      | true =>
        rw [if_pos rfl]
        obtain ⟨hlow, hhigh, heq, habove⟩ := @ih ((left + right + 1) / 2) _ hdown (by omega) (by omega)
        refine ⟨by omega, hhigh, .inr ?_, habove⟩
        obtain heq | heq := heq
        · rw [heq]
          exact hmid
        · exact heq
      | false =>
        rw [if_neg Bool.false_ne_true]
        obtain ⟨hlow, hhigh, heq, habove⟩ := @ih left ((left + right + 1) / 2 - 1)
          (fun i j hij hj => hdown i j hij (by omega)) (by omega) (by omega)
        refine ⟨hlow, by omega, heq, fun j hj hjr => ?_⟩
        by_cases hjm : j ≤ (left + right + 1) / 2 - 1
        · exact habove j hj hjm
        · rw [Bool.eq_false_iff]
          intro hpj
          rw [hdown _ j (by omega) hjr hpj] at hmid
          cases hmid
    · rw [if_neg hlt]
      exact ⟨Nat.le_refl _, hle, .inl rfl, fun j hj hjr => by omega⟩

end Cursors
