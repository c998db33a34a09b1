import Mathlib.Data.List.Perm.Subperm
import Mathlib.Order.Lattice
import Mathlib.Data.List.GetD
import Mathlib.Data.Nat.Basic

/-! Drawing items from a list without replacement: each draw takes the one of least score
among those that are not late, or the first one left when all are late. -/

namespace Draw

variable {α β : Type} [DecidableEq α] [LinearOrder β]

def pick (late : α → Bool) (score : α → β) (taken : List α) : List α → Option α → Option α
  | [], best => best
  | a :: l, best =>
    if best.isSome && late a then best
    else if a ∈ taken then pick late score taken l best
    else
      pick late score taken l (match best with
        | none => some a
        | some b => if score a < score b then some a else some b)

structure Drawn (late : α → Bool) (score : α → β) (l taken : List α) (d : α) : Prop where
  mem : d ∈ l
  fresh : d ∉ taken
  best : (late d = false ∧ ∀ c ∈ l, c ∉ taken → late c = false → score d ≤ score c) ∨
    ((∀ c ∈ l, c ∉ taken → late c = true) ∧ (l.filter (· ∉ taken)).head? = some d)

section Pick

variable {late : α → Bool} (score : α → β) (taken : List α)

/-- From a choice on, the pass ends with the least score among the choice and the items
before the first late one. -/
theorem pick_some {l : List α} {b : α}
    (hl : l.Pairwise (fun a c => late a = true → late c = true)) :
    ∃ d, pick late score taken l (some b) = some d ∧
      (d = b ∨ d ∈ l ∧ d ∉ taken ∧ late d = false) ∧ score d ≤ score b ∧
      ∀ c ∈ l, c ∉ taken → late c = false → score d ≤ score c := by
  induction l generalizing b with
  | nil => exact ⟨b, rfl, .inl rfl, le_rfl, by simp⟩
  | cons a l ih =>
    obtain ⟨ha, hl⟩ := List.pairwise_cons.mp hl
    unfold pick
    by_cases hlate : late a = true
    · refine ⟨b, by simp [hlate], .inl rfl, le_rfl, ?_⟩
      -- everything from here on is late
      intro c hc _ hearly
      rcases List.mem_cons.mp hc with rfl | hc
      · simp [hlate] at hearly
      · simp [ha c hc hlate] at hearly
    · rw [if_neg (by simpa using hlate)]
      by_cases ht : a ∈ taken
      · obtain ⟨d, hd, hmem, hle, hmin⟩ := ih (b := b) hl
        refine ⟨d, by rw [if_pos ht, hd], ?_, hle, ?_⟩
        · exact hmem.imp_right fun h => ⟨List.mem_cons_of_mem _ h.1, h.2⟩
        · intro c hc hct hearly
          rcases List.mem_cons.mp hc with rfl | hc
          · exact absurd ht hct
          · exact hmin c hc hct hearly
      · rw [if_neg ht]
        by_cases hlt : score a < score b
        · obtain ⟨d, hd, hmem, hle, hmin⟩ := ih (b := a) hl
          refine ⟨d, by simp only [if_pos hlt, hd], .inr ?_, hle.trans hlt.le, ?_⟩
          · rcases hmem with rfl | ⟨hm, hd⟩
            · exact ⟨List.mem_cons_self, ht, by simpa using hlate⟩
            · exact ⟨List.mem_cons_of_mem _ hm, hd⟩
          · intro c hc hct hearly
            rcases List.mem_cons.mp hc with rfl | hc
            · exact hle
            · exact hmin c hc hct hearly
        · obtain ⟨d, hd, hmem, hle, hmin⟩ := ih (b := b) hl
          refine ⟨d, by simp only [if_neg hlt, hd], ?_, hle, ?_⟩
          · exact hmem.imp_right fun h => ⟨List.mem_cons_of_mem _ h.1, h.2⟩
          · intro c hc hct hearly
            rcases List.mem_cons.mp hc with rfl | hc
            · exact hle.trans (not_lt.mp hlt)
            · exact hmin c hc hct hearly

/-- A pass over a list that is not used up draws an item. -/
theorem pick_drawn {l : List α} (hl : l.Pairwise (fun a c => late a = true → late c = true))
    (h : ∃ c ∈ l, c ∉ taken) :
    ∃ d, pick late score taken l none = some d ∧ Drawn late score l taken d := by
  induction l with
  | nil => simp at h
  | cons a l ih =>
    obtain ⟨ha, hl⟩ := List.pairwise_cons.mp hl
    unfold pick
    by_cases ht : a ∈ taken
    · obtain ⟨c, hc, hct⟩ := h
      have hleft : ∃ c ∈ l, c ∉ taken := by
        rcases List.mem_cons.mp hc with rfl | hc
        · exact absurd ht hct
        · exact ⟨c, hc, hct⟩
      obtain ⟨d, hd, hdrawn⟩ := ih hl hleft
      refine ⟨d, by simpa [ht] using hd, ⟨List.mem_cons_of_mem _ hdrawn.mem, hdrawn.fresh, ?_⟩⟩
      have hcons : ∀ {P : α → Prop}, (∀ c ∈ l, c ∉ taken → P c) → ∀ c ∈ a :: l, c ∉ taken → P c := by
        intro P hP c hc hct
        rcases List.mem_cons.mp hc with rfl | hc
        · exact absurd ht hct
        · exact hP c hc hct
      rcases hdrawn.best with ⟨hearly, hmin⟩ | ⟨hall, hhead⟩
      · exact .inl ⟨hearly, hcons hmin⟩
      · exact .inr ⟨hcons hall, by simpa [ht] using hhead⟩
    · simp only [Option.isSome_none, Bool.false_and, Bool.false_eq_true, ↓reduceIte, ht]
      obtain ⟨d, hd, hmem, hle, hmin⟩ := pick_some score taken (b := a) hl
      refine ⟨d, hd, ?_, ?_, ?_⟩
      · rcases hmem with rfl | ⟨hm, _⟩
        · exact List.mem_cons_self
        · exact List.mem_cons_of_mem _ hm
      · rcases hmem with rfl | ⟨_, hfresh, _⟩
        · exact ht
        · exact hfresh
      · by_cases hlate : late a = true
        · -- the first item left is late, and so are all others
          have hda : d = a := by
            rcases hmem with rfl | ⟨hm, _, hearly⟩
            · rfl
            · simp [ha d hm hlate] at hearly
          refine .inr ⟨?_, by simp [ht, hda]⟩
          intro c hc _
          rcases List.mem_cons.mp hc with rfl | hc
          · exact hlate
          · exact ha c hc hlate
        · refine .inl ⟨?_, ?_⟩
          · rcases hmem with rfl | ⟨_, _, hearly⟩
            · simpa using hlate
            · exact hearly
          · intro c hc hct hearly
            rcases List.mem_cons.mp hc with rfl | hc
            · exact hle
            · exact hmin c hc hct hearly

end Pick

def draw (late : Nat → α → Bool) (score : α → β) (l : List α) : Nat → List α
  | 0 => []
  | n + 1 =>
    draw late score l n ++ (pick (late n) score (draw late score l n) l none).toList

section Rounds

variable {late : Nat → α → Bool} (score : α → β) {l : List α}

/-- Fewer draws than items leave one over. -/
theorem exists_left {taken : List α} (hl : l.Nodup) (hn : taken.length < l.length) :
    ∃ c ∈ l, c ∉ taken := by
  by_contra hall
  push Not at hall
  have := (hl.subperm hall).length_le
  omega

theorem draw_invariant (hl : l.Nodup)
    (hlate : ∀ n, l.Pairwise (fun a c => late n a = true → late n c = true)) {n : Nat}
    (hn : n ≤ l.length) :
    (draw late score l n).length = n ∧ (draw late score l n).Nodup ∧ draw late score l n ⊆ l := by
  induction n with
  | zero => exact ⟨rfl, List.nodup_nil, List.nil_subset _⟩
  | succ n ih =>
    obtain ⟨hlen, hnd, hsub⟩ := ih (Nat.le_of_succ_le hn)
    obtain ⟨d, hd, hdrawn⟩ := pick_drawn score _ (hlate n) (exists_left hl (hlen.symm ▸ hn))
    rw [draw, hd, Option.toList_some]
    refine ⟨by simp [hlen], ?_, ?_⟩
    · refine List.nodup_append.mpr ⟨hnd, by simp, ?_⟩
      rintro c hc _ he rfl
      exact hdrawn.fresh (List.mem_singleton.mp he ▸ hc)
    · exact List.append_subset.mpr ⟨hsub, by simpa using hdrawn.mem⟩

/-- While items are left, each round draws one more. -/
theorem draw_succ (hl : l.Nodup)
    (hlate : ∀ n, l.Pairwise (fun a c => late n a = true → late n c = true)) {n : Nat}
    (hn : n < l.length) :
    ∃ d, pick (late n) score (draw late score l n) l none = some d ∧
      draw late score l (n + 1) = draw late score l n ++ [d] ∧
      Drawn (late n) score l (draw late score l n) d := by
  have hlen := (draw_invariant score hl hlate (Nat.le_of_lt hn)).1
  obtain ⟨d, hd, hdrawn⟩ := pick_drawn score _ (hlate n) (exists_left hl (hlen.symm ▸ hn))
  exact ⟨d, hd, by rw [draw, hd, Option.toList_some], hdrawn⟩

/-- The items of a run in the order they were drawn, each against those drawn before it. -/
theorem draw_get (hl : l.Nodup)
    (hlate : ∀ n, l.Pairwise (fun a c => late n a = true → late n c = true)) {r : Nat} {d : α}
    {n : Nat} (hn : n ≤ l.length) (h : (draw late score l n)[r]? = some d) :
    (draw late score l n).take r = draw late score l r ∧
      Drawn (late r) score l (draw late score l r) d := by
  induction n with
  | zero => simp [draw] at h
  | succ n ih =>
    obtain ⟨e, _, hsucc, hdrawn⟩ := draw_succ score hl hlate hn
    have hlen := (draw_invariant score hl hlate (Nat.le_of_lt hn)).1
    rw [hsucc] at h ⊢
    rcases Nat.lt_or_ge r n with hr | hr
    · rw [List.getElem?_append_left (hlen.symm ▸ hr)] at h
      rw [List.take_append_of_le_length (by omega)]
      exact ih (Nat.le_of_lt hn) h
    · have hrn : r = n := by
        have := (List.getElem?_eq_some_iff.mp h).1
        simp only [List.length_append, List.length_singleton] at this
        omega
      subst hrn
      rw [List.getElem?_append_right (by omega), hlen] at h
      simp only [Nat.sub_self, List.getElem?_cons_zero, Option.some.injEq] at h
      subst h
      exact ⟨by rw [List.take_append_of_le_length (by omega), List.take_of_length_le (by omega)],
        hdrawn⟩

end Rounds

section Congr

variable {late : α → Bool} {score score' : α → β} {taken : List α}

theorem pick_congr {l : List α} (best : Option α) (hl : ∀ a ∈ l, score a = score' a)
    (hbest : ∀ b, best = some b → score b = score' b) :
    pick late score taken l best = pick late score' taken l best := by
  induction l generalizing best with
  | nil => rfl
  | cons a l ih =>
    have hrest : ∀ c ∈ l, score c = score' c := fun c hc => hl c (List.mem_cons_of_mem _ hc)
    have ha : score a = score' a := hl a List.mem_cons_self
    unfold pick
    cases best with
    | none =>
      simp only [ih none hrest (by simp), ih (some a) hrest (by simp [ha])]
    | some b =>
      have hb : score b = score' b := hbest b rfl
      simp only [ha, hb]
      have hnext : ∀ c, (if score' a < score' b then some a else some b) = some c →
          score c = score' c := by
        intro c hc
        split at hc <;> cases hc
        · exact ha
        · exact hb
      rw [ih (some b) hrest (by simp [hb]), ih _ hrest hnext]

/-- Draws only look at the scores of the items on the list. -/
theorem draw_congr {late : Nat → α → Bool} {l : List α} (h : ∀ a ∈ l, score a = score' a)
    (n : Nat) : draw late score l n = draw late score' l n := by
  induction n with
  | zero => rfl
  | succ n ih => rw [draw, draw, ih, pick_congr none h (by simp)]

end Congr

end Draw

/-! Shuffling the front of a list in place: round `i` swaps the entry of place `i` with one that
stands there or behind it. -/

namespace Shuffle

variable {α : Type} (d : α)

def bring (l : List α) (i p : Nat) : List α := (l.set p (l.getD i d)).set i (l.getD p d)

def rounds (pos : Nat → Nat) (l : List α) : Nat → List α
  | 0 => l
  | r + 1 => bring d (rounds pos l r) r (pos r)

/-- What rounds from `i` on bring to the front, drawn from the entries that are left: the entry in
front fills the gap. -/
def drawn (pos : Nat → Nat) : Nat → Nat → List α → List α
  | 0, _, _ => []
  | _ + 1, _, [] => []
  | n + 1, i, x :: left =>
    (x :: left).getD (pos i - i) d :: drawn pos n (i + 1) ((x :: left).set (pos i - i) x).tail

section Bring

variable {d}

@[simp] theorem bring_length (l : List α) (i p : Nat) : (bring d l i p).length = l.length := by
  rw [bring, List.length_set, List.length_set]

theorem bring_perm {l : List α} {i p : Nat} (hi : i < l.length) (hp : p < l.length) :
    (bring d l i p).Perm l := by
  rw [bring, List.getD_eq_getElem _ _ hi, List.getD_eq_getElem _ _ hp]
  exact List.set_set_perm hp hi

/-- The entries in front of a round stay, and those behind it have one drawn from them. -/
theorem bring_append {front left : List α} {x : α} {p : Nat} (hp : front.length ≤ p) :
    bring d (front ++ x :: left) front.length p =
      front ++ (x :: left).getD (p - front.length) d ::
        ((x :: left).set (p - front.length) x).tail := by
  have hx : (front ++ x :: left).getD front.length d = x := by
    rw [List.getD_append_right _ _ _ _ (le_refl _), Nat.sub_self, List.getD_cons_zero]
  rw [bring, hx, List.getD_append_right _ _ _ _ hp, List.set_append_right _ _ hp,
    List.set_append_right _ _ (le_refl _), Nat.sub_self]
  cases p - front.length <;> rfl

end Bring

variable {d} {pos : Nat → Nat} {l : List α}

@[simp] theorem rounds_length (r : Nat) : (rounds d pos l r).length = l.length := by
  induction r with
  | zero => rfl
  | succ r ih => rw [rounds, bring_length, ih]

theorem rounds_perm {r : Nat} (hpos : ∀ i < r, pos i < l.length) (hr : r ≤ l.length) :
    (rounds d pos l r).Perm l := by
  induction r with
  | zero => exact List.Perm.refl _
  | succ r ih =>
    have hrest := ih (fun i hi => hpos i (Nat.lt_succ_of_lt hi)) (Nat.le_of_succ_le hr)
    refine (bring_perm ?_ ?_).trans hrest
    · rw [rounds_length]
      exact hr
    · rw [rounds_length]
      exact hpos r (Nat.lt_succ_self r)

/-- More rounds fill more places with what is drawn from the rest, and leave those filled. -/
theorem rounds_take (hpos : ∀ i, i ≤ pos i) (n r : Nat) (h : r + n ≤ l.length) :
    (rounds d pos l (r + n)).take (r + n) =
      (rounds d pos l r).take r ++ drawn d pos n r ((rounds d pos l r).drop r) := by
  induction n generalizing r with
  | zero => exact (List.append_nil _).symm
  | succ n ih =>
    have hlen : ((rounds d pos l r).take r).length = r := by
      rw [List.length_take, rounds_length]
      omega
    have hdrop : ((rounds d pos l r).drop r).length = l.length - r := by
      rw [List.length_drop, rounds_length]
    rw [show r + (n + 1) = r + 1 + n by omega, ih (r + 1) (by omega)]
    have hsplit := List.take_append_drop r (rounds d pos l r)
    generalize (rounds d pos l r).take r = front at hlen hsplit
    generalize hleft : (rounds d pos l r).drop r = left at hdrop hsplit
    cases left with
    | nil =>
      rw [List.length_nil] at hdrop
      omega
    | cons x left =>
      have hround : rounds d pos l (r + 1) =
          (front ++ [(x :: left).getD (pos r - r) d]) ++ ((x :: left).set (pos r - r) x).tail := by
        have hp : front.length ≤ pos r := hlen.le.trans (hpos r)
        have hbring : bring d (front ++ x :: left) front.length (pos r) = _ := bring_append hp
        rw [hlen] at hbring
        rw [rounds, ← hsplit, hbring, List.append_assoc]
        rfl
      have hfront : (front ++ [(x :: left).getD (pos r - r) d]).length = r + 1 := by
        rw [List.length_append, hlen]
        rfl
      rw [hround, List.take_left' hfront, List.drop_left' hfront, drawn, List.append_assoc]
      rfl

/-- The front of the shuffled list is what the rounds draw. -/
theorem rounds_drawn (hpos : ∀ i, i ≤ pos i) {n : Nat} (hn : n ≤ l.length) :
    (rounds d pos l n).take n = drawn d pos n 0 l := by
  have h : (rounds d pos l (0 + n)).take (0 + n) = [] ++ drawn d pos n 0 l :=
    rounds_take hpos n 0 (by omega)
  rwa [Nat.zero_add] at h

/-- Entries brought to the front stay there. -/
theorem rounds_getD (hpos : ∀ i, i ≤ pos i) {j r : Nat} (hj : j < r) :
    (rounds d pos l (r + 1)).getD j d = (rounds d pos l r).getD j d := by
  have hp := hpos r
  rw [rounds, bring, List.getD_eq_getElem?_getD, List.getElem?_set_ne (by omega),
    List.getElem?_set_ne (by omega), ← List.getD_eq_getElem?_getD]

/-! The place of least score, the first one of several. -/

section Least

variable {β : Type} [LinearOrder β] {score score' : Nat → β} {r m m' : Nat}

structure FirstLeast (score : Nat → β) (r m : Nat) : Prop where
  lt : m < r
  least : ∀ j < r, score m ≤ score j
  first : ∀ j < m, score m < score j

theorem FirstLeast.unique (h : FirstLeast score r m) (h' : FirstLeast score r m') : m = m' := by
  rcases Nat.lt_trichotomy m m' with hlt | heq | hgt
  · exact absurd (h'.first m hlt) (not_lt.mpr (h.least m' h'.lt))
  · exact heq
  · exact absurd (h.first m' hgt) (not_lt.mpr (h'.least m h.lt))

theorem FirstLeast.congr (h : FirstLeast score r m) (hsame : ∀ j < r, score j = score' j) :
    FirstLeast score' r m where
  lt := h.lt
  least j hj := by
    rw [← hsame m h.lt, ← hsame j hj]
    exact h.least j hj
  first j hj := by
    rw [← hsame m h.lt, ← hsame j (hj.trans h.lt)]
    exact h.first j hj

theorem FirstLeast.one : FirstLeast score 1 0 where
  lt := Nat.one_pos
  least j hj := by rw [Nat.lt_one_iff.mp hj]
  first j hj := absurd hj (Nat.not_lt_zero j)

/-- A place with less than all before is the new one. -/
theorem FirstLeast.next (h : FirstLeast score r m) (hless : score r < score m) :
    FirstLeast score (r + 1) r where
  lt := Nat.lt_succ_self r
  least j hj := by
    rcases Nat.lt_succ_iff_lt_or_eq.mp hj with hlt | rfl
    · exact hless.le.trans (h.least j hlt)
    · exact le_rfl
  first j hj := hless.trans_le (h.least j hj)

theorem FirstLeast.keep (h : FirstLeast score r m) (hmore : ¬ score r < score m) :
    FirstLeast score (r + 1) m where
  lt := Nat.lt_succ_of_lt h.lt
  least j hj := by
    rcases Nat.lt_succ_iff_lt_or_eq.mp hj with hlt | rfl
    · exact h.least j hlt
    · exact not_lt.mp hmore
  first := h.first

end Least

end Shuffle
