import Mathlib.Data.Nat.Bitwise
import Mathlib.Data.Nat.Digits.Lemmas

/-! Numbers as lists of words of `w` bits, the lowest word first. -/

namespace Limbs

variable {w : Nat} {x y : BitVec w} {xs ys : List (BitVec w)} {a b c n : Nat}

def value (xs : List (BitVec w)) : Nat := Nat.ofDigits (2 ^ w) (xs.map BitVec.toNat)

@[simp] theorem value_nil : value ([] : List (BitVec w)) = 0 := rfl

@[simp] theorem value_cons : value (x :: xs) = x.toNat + 2 ^ w * value xs := by
  simp [value, Nat.ofDigits_cons]

theorem value_append : value (xs ++ ys) = value xs + 2 ^ (w * xs.length) * value ys := by
  simp [value, Nat.ofDigits_append, pow_mul]

@[simp] theorem value_zeros : value (List.replicate n 0#w) = 0 := by
  induction n with
  | zero => rfl
  | succ n ih => simp [List.replicate_succ, ih]

theorem value_lt (xs : List (BitVec w)) : value xs < 2 ^ (w * xs.length) := by
  induction xs with
  | nil => simp
  | cons x xs ih =>
    have hx := x.isLt
    calc value (x :: xs) = x.toNat + 2 ^ w * value xs := value_cons
      _ < 2 ^ w * (value xs + 1) := by rw [Nat.mul_succ]; omega
      _ ≤ 2 ^ w * 2 ^ (w * xs.length) := Nat.mul_le_mul_left _ ih
      _ = 2 ^ (w * (x :: xs).length) := by rw [← pow_add, List.length_cons, Nat.mul_succ, Nat.add_comm]

/-- The lowest word is the remainder, and the others are the quotient. -/
theorem value_cons_mod : value (x :: xs) % 2 ^ w = x.toNat := by
  rw [value_cons, Nat.add_mul_mod_self_left, Nat.mod_eq_of_lt x.isLt]

theorem value_cons_div : value (x :: xs) / 2 ^ w = value xs := by
  rw [value_cons, Nat.add_mul_div_left _ _ (Nat.two_pow_pos w), Nat.div_eq_of_lt x.isLt, Nat.zero_add]

theorem value_inj (hlen : xs.length = ys.length) (h : value xs = value ys) : xs = ys := by
  induction xs generalizing ys with
  | nil => exact (List.eq_nil_of_length_eq_zero hlen.symm).symm
  | cons x xs ih =>
    cases ys with
    | nil => simp at hlen
    | cons y ys =>
      have hx : x = y := by
        apply BitVec.eq_of_toNat_eq
        have hmod := congrArg (· % 2 ^ w) h
        simpa only [value_cons_mod] using hmod
      have hxs : value xs = value ys := by
        have hdiv := congrArg (· / 2 ^ w) h
        simpa only [value_cons_div] using hdiv
      rw [hx, ih (by simpa using hlen) hxs]

/-- Words are computed one by one, each from what the words below it leave of the number. -/
theorem value_cons_of_mod (hx : x.toNat = n % 2 ^ w)
    (hxs : value xs = n / 2 ^ w % 2 ^ (w * xs.length)) : value (x :: xs) = n % 2 ^ (w * (xs.length + 1)) := by
  rw [value_cons, hx, hxs, Nat.mul_succ, Nat.add_comm (w * xs.length), pow_add, Nat.mod_mul]

/-! Bits. -/

theorem testBit_value (hw : 0 < w) (t : Nat) :
    (value xs).testBit t = (xs.getD (t / w) 0).getLsbD (t % w) := by
  induction xs generalizing t with
  | nil => simp
  | cons x xs ih =>
    rw [value_cons, Nat.add_comm, Nat.testBit_two_pow_mul_add _ x.isLt]
    by_cases ht : t < w
    · simp [ht, Nat.div_eq_of_lt ht, Nat.mod_eq_of_lt ht, BitVec.getLsbD]
    · have hdiv : t / w = (t - w) / w + 1 := Nat.div_eq_sub_div hw (by omega)
      rw [if_neg ht, ih, hdiv, List.getD_cons_succ, ← Nat.mod_eq_sub_mod (by omega)]

/-- Two numbers below a bound on the bits are one when these bits are. -/
theorem eq_of_bits (ha : a < 2 ^ n) (hb : b < 2 ^ n) (h : ∀ t < n, a.testBit t = b.testBit t) : a = b := by
  apply Nat.eq_of_testBit_eq
  intro t
  by_cases ht : t < n
  · exact h t ht
  · have hle : 2 ^ n ≤ 2 ^ t := Nat.pow_le_pow_right (by decide) (by omega)
    rw [Nat.testBit_lt_two_pow (by omega), Nat.testBit_lt_two_pow (by omega)]

/-- An operation that words and numbers have bit by bit. -/
theorem value_zipWith (op : BitVec w → BitVec w → BitVec w) (f : Bool → Bool → Bool)
    (hop : ∀ x y, (op x y).toNat = Nat.bitwise f x.toNat y.toNat) (hf : f false false = false)
    (hlen : xs.length = ys.length) :
    value (List.zipWith op xs ys) = Nat.bitwise f (value xs) (value ys) := by
  induction xs generalizing ys with
  | nil =>
    rw [List.eq_nil_of_length_eq_zero hlen.symm]
    exact Nat.bitwise_zero.symm
  | cons x xs ih =>
    cases ys with
    | nil => simp at hlen
    | cons y ys =>
      apply Nat.eq_of_testBit_eq
      intro t
      have hxy := hop x y
      rw [List.zipWith_cons_cons, value_cons, ih (by simpa using hlen), Nat.testBit_bitwise hf, value_cons,
        value_cons, Nat.add_comm, Nat.testBit_two_pow_mul_add _ (op x y).isLt, Nat.add_comm x.toNat,
        Nat.testBit_two_pow_mul_add _ x.isLt, Nat.add_comm y.toNat, Nat.testBit_two_pow_mul_add _ y.isLt, hxy]
      by_cases ht : t < w
      · simp [ht, Nat.testBit_bitwise hf]
      · simp [ht, Nat.testBit_bitwise hf]

/-- The complement of every word. -/
theorem value_not (xs : List (BitVec w)) :
    value (xs.map (~~~ ·)) + value xs + 1 = 2 ^ (w * xs.length) := by
  induction xs with
  | nil => simp
  | cons x xs ih =>
    have hx : (~~~x).toNat + x.toNat + 1 = 2 ^ w := by
      rw [BitVec.toNat_not]
      have hlt := x.isLt
      omega
    calc value ((x :: xs).map (~~~ ·)) + value (x :: xs) + 1
        = (~~~x).toNat + x.toNat + 1 + 2 ^ w * (value (xs.map (~~~ ·)) + value xs) := by
          simp only [List.map_cons, value_cons]
          ring
      _ = 2 ^ w * (value (xs.map (~~~ ·)) + value xs + 1) := by rw [hx]; ring
      _ = 2 ^ (w * (x :: xs).length) := by rw [ih, List.length_cons, Nat.mul_succ, pow_add, Nat.mul_comm]

/-! The highest word decides first. -/

theorem value_concat : value (xs ++ [x]) = value xs + 2 ^ (w * xs.length) * x.toNat := by
  rw [value_append, value_cons, value_nil, Nat.mul_zero, Nat.add_zero]

theorem concat_lt (hlen : xs.length = ys.length) (h : x < y) : value (xs ++ [x]) < value (ys ++ [y]) := by
  have hx := value_lt xs
  rw [value_concat, value_concat, ← hlen]
  calc value xs + 2 ^ (w * xs.length) * x.toNat < 2 ^ (w * xs.length) * (x.toNat + 1) := by
        rw [Nat.mul_succ]
        omega
    _ ≤ 2 ^ (w * xs.length) * y.toNat := Nat.mul_le_mul_left _ h
    _ ≤ value ys + 2 ^ (w * xs.length) * y.toNat := Nat.le_add_left _ _

end Limbs
