import Mathlib.Data.List.Basic
import Mathlib.Tactic.Common

/-! A machine that eats a list in blocks of one size and keeps what does not fill a block. -/

namespace Absorb

variable {α σ : Type}

/-- Whole blocks of `n` from the front, at most `rounds` of them: the state after them and what
is left. -/
def blocks (n : Nat) (step : σ → List α → σ) : Nat → σ → List α → σ × List α
  | 0, s, l => (s, l)
  | rounds + 1, s, l =>
    if n ≤ l.length then blocks n step rounds (step s (l.take n)) (l.drop n) else (s, l)

def eat (n : Nat) (step : σ → List α → σ) (s : σ) (l : List α) : σ × List α :=
  blocks n step l.length s l

section Size

variable {n : Nat} {step : σ → List α → σ} (hn : 0 < n)
include hn

/-- More rounds than the list has items change nothing. -/
theorem blocks_eq_eat (rounds : Nat) (s : σ) (l : List α) (h : l.length ≤ rounds) :
    blocks n step rounds s l = eat n step s l := by
  suffices hall : ∀ (a b : Nat) (s : σ) (l : List α), l.length ≤ a → l.length ≤ b →
      blocks n step a s l = blocks n step b s l from hall rounds l.length s l h (Nat.le_refl _)
  intro a
  induction a with
  | zero =>
    intro b s l ha _
    have hl : l = [] := List.eq_nil_of_length_eq_zero (Nat.le_zero.mp ha)
    cases b <;> simp [blocks, hl, Nat.ne_of_gt hn]
  | succ a ih =>
    intro b s l ha hb
    cases b with
    | zero =>
      have hl : l = [] := List.eq_nil_of_length_eq_zero (Nat.le_zero.mp hb)
      simp [blocks, hl, Nat.ne_of_gt hn]
    | succ b =>
      simp only [blocks]
      split
      · apply ih
        · simp only [List.length_drop]; omega
        · simp only [List.length_drop]; omega
      · rfl

omit hn in
theorem eat_short {s : σ} {l : List α} (h : l.length < n) : eat n step s l = (s, l) := by
  unfold eat
  cases hl : l.length with
  | zero => rfl
  | succ k =>
    simp only [blocks]
    rw [if_neg (by omega)]

theorem eat_block {s : σ} {b l : List α} (h : b.length = n) :
    eat n step s (b ++ l) = eat n step (step s b) l := by
  obtain ⟨k, hk⟩ : ∃ k, (b ++ l).length = k + 1 :=
    ⟨n + l.length - 1, by simp only [List.length_append]; omega⟩
  have hfull : n ≤ (b ++ l).length := by simp only [List.length_append]; omega
  have htake : (b ++ l).take n = b := by simp [← h]
  have hdrop : (b ++ l).drop n = l := by simp [← h]
  have heat : eat n step s (b ++ l) = blocks n step k (step s b) l := by
    unfold eat
    rw [hk, blocks, if_pos hfull, htake, hdrop]
  rw [heat]
  apply blocks_eq_eat hn
  simp only [List.length_append] at hk
  omega

omit hn in
/-- A list of a block or more is a block and what follows it. -/
theorem split_block {l : List α} (h : n ≤ l.length) : ∃ b m, l = b ++ m ∧ b.length = n :=
  ⟨l.take n, l.drop n, (List.take_append_drop n l).symm, by simp [h]⟩

/-- What is left is less than a block. -/
theorem eat_rest (s : σ) (l : List α) : (eat n step s l).2.length < n := by
  induction hk : l.length using Nat.strongRecOn generalizing s l with
  | _ k ih =>
    by_cases h : n ≤ l.length
    · obtain ⟨b, m, rfl, hb⟩ := split_block h
      rw [eat_block hn hb]
      apply ih m.length _ _ _ rfl
      simp only [List.length_append] at hk
      omega
    · rw [eat_short (by omega)]
      simpa using h

/-- A list that comes in two parts: the rest of the first part stands before the second. -/
theorem eat_append (s : σ) (l m : List α) :
    eat n step s (l ++ m) = eat n step (eat n step s l).1 ((eat n step s l).2 ++ m) := by
  induction hk : l.length using Nat.strongRecOn generalizing s l with
  | _ k ih =>
    by_cases h : n ≤ l.length
    · obtain ⟨b, l', rfl, hb⟩ := split_block h
      rw [List.append_assoc, eat_block hn hb, eat_block hn hb]
      apply ih l'.length _ _ _ rfl
      simp only [List.length_append] at hk
      omega
    · rw [eat_short (by omega : l.length < n)]

end Size

end Absorb

/-! Text that is told as steps: some literals, then a piece of what was told before. -/

namespace Lz77

variable {α : Type}

structure Step (α : Type) where
  literals : List α
  offset : Nat
  length : Nat
deriving DecidableEq

def copyBack (offset : Nat) : Nat → List α → List α
  | 0, out => out
  | n + 1, out => copyBack offset n (out ++ out[out.length - offset]?.toList)

def Step.play (out : List α) (s : Step α) : List α :=
  copyBack s.offset s.length (out ++ s.literals)

/-- A piece of a text that repeats what stands an offset before it. -/
theorem copyBack_take {text : List α} {offset p : Nat} (n : Nat) (hoffset : 1 ≤ offset)
    (hp : offset ≤ p) (hn : p + n ≤ text.length)
    (hrepeats : ∀ i, p ≤ i → i < p + n → text[i]? = text[i - offset]?) :
    copyBack offset n (text.take p) = text.take (p + n) := by
  induction n generalizing p with
  | zero => rfl
  | succ n ih =>
    have hlen : (text.take p).length = p := by
      rw [List.length_take]
      omega
    have hnext : (text.take p)[(text.take p).length - offset]? = text[p]? := by
      rw [hlen, List.getElem?_take_of_lt (by omega), hrepeats p (Nat.le_refl p) (by omega)]
    rw [copyBack, hnext, ← List.take_add_one, Nat.add_comm n 1, ← Nat.add_assoc]
    exact ih (by omega) (by omega) fun i hi hlt => hrepeats i (by omega) (by omega)

/-- The steps that tell the first `p` items go on with one that tells the next literals and a piece
that repeats. -/
theorem Step.play_take {text : List α} {s : Step α} {p : Nat}
    (hliterals : s.literals = (text.drop p).take s.literals.length) (hoffset : 1 ≤ s.offset)
    (hp : s.offset ≤ p + s.literals.length)
    (hn : p + s.literals.length + s.length ≤ text.length)
    (hrepeats : ∀ i, p + s.literals.length ≤ i → i < p + s.literals.length + s.length →
      text[i]? = text[i - s.offset]?) :
    s.play (text.take p) = text.take (p + s.literals.length + s.length) := by
  have htake : text.take p ++ s.literals = text.take (p + s.literals.length) := by
    rw [List.take_add, ← hliterals]
  rw [Step.play, htake]
  exact copyBack_take s.length hoffset hp hn hrepeats

/-! Copying in words. -/

def Repeats (mem : Nat → α) (offset p q : Nat) : Prop :=
  ∀ i, p ≤ i → i < q → mem i = mem (i - offset)

theorem Repeats.mono {mem : Nat → α} {offset p q q' : Nat} (h : Repeats mem offset p q)
    (hq : q' ≤ q) : Repeats mem offset p q' :=
  fun i hi hlt => h i hi (Nat.lt_of_lt_of_le hlt hq)

/-- Going back by several offsets at once comes to the same, when the first items were told by going
back by one. -/
theorem Repeats.of_multiple {mem : Nat → α} {offset p m q : Nat} (k : Nat)
    (hfirst : Repeats mem offset p m) (hrest : Repeats mem ((k + 1) * offset) m q)
    (hm : p + k * offset ≤ m) : Repeats mem offset p q := by
  intro i
  induction i using Nat.strongRecOn with
  | _ i ih =>
    intro hi hlt
    by_cases hsmall : i < m
    · exact hfirst i hi hsmall
    · -- down from the item before by single offsets
      have hdown : ∀ j, j ≤ k → mem (i - offset) = mem (i - (j + 1) * offset) := by
        intro j hj
        induction j with
        | zero => rw [Nat.zero_add, Nat.one_mul]
        | succ j ihj =>
          have hjk : (j + 1) * offset ≤ k * offset := Nat.mul_le_mul_right _ hj
          rw [ihj (by omega)]
          by_cases hzero : offset = 0
          · subst hzero
            simp
          · have hpos : 0 < (j + 1) * offset := Nat.mul_pos (by omega) (by omega)
            rw [ih (i - (j + 1) * offset) (by omega) (by omega) (by omega), Nat.sub_sub,
              Nat.succ_mul (j + 1)]
      rw [hrest i (by omega) hlt, hdown k (Nat.le_refl k)]

/-- What stands in a memory up to a place, told again from an offset back. -/
theorem copyBack_mem {mem mem' : Nat → α} {offset p n : Nat} (hoffset : 1 ≤ offset)
    (hp : offset ≤ p) (hkept : ∀ i, i < p → mem' i = mem i)
    (hrepeats : Repeats mem' offset p (p + n)) :
    copyBack offset n ((List.range p).map mem) = (List.range (p + n)).map mem' := by
  have htake : ((List.range (p + n)).map mem').take p = (List.range p).map mem := by
    rw [← List.map_take, List.take_range, Nat.min_eq_left (Nat.le_add_right p n)]
    exact List.map_congr_left fun i hi => hkept i (List.mem_range.mp hi)
  have hget : ∀ i, i < p + n → ((List.range (p + n)).map mem')[i]? = some (mem' i) := by
    intro i hi
    rw [List.getElem?_map, List.getElem?_range hi]
    rfl
  have hcopy := @copyBack_take _ ((List.range (p + n)).map mem') _ _ n hoffset hp (by simp)
    fun i hi hlt => by rw [hget i hlt, hget (i - offset) (by omega), hrepeats i hi hlt]
  rw [htake, List.take_of_length_le (by simp)] at hcopy
  exact hcopy

end Lz77
