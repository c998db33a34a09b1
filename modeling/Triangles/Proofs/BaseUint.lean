import Mathlib.Data.Int.ModEq
import Mathlib.Data.List.TakeWhile
import Triangles.Lib.Limbs
import Triangles.Model.BaseUint

/-! Wide integers are the integers modulo 2^BITS. -/

namespace Triangles.BaseUint

open Limbs (testBit_value value_lt value_cons value_cons_of_mod value_inj)

variable {BITS : Nat} {a b : BaseUint BITS} {y z : ℤ} {pn xs ys : List (BitVec 32)}

def value (a : BaseUint BITS) : Nat := Limbs.value a.pn

theorem ext (h : a.pn = b.pn) : a = b := by
  cases a
  cases b
  simp_all

theorem eq_of_value (h : a.value = b.value) : a = b :=
  ext (value_inj (by rw [a.size, b.size]) h)

/-! One loop at a time. -/

theorem value_incrementLoop (pn : List (BitVec 32)) :
    Limbs.value (incrementLoop pn) = (Limbs.value pn + 1) % 2 ^ (32 * pn.length) := by
  induction pn with
  | nil => rfl
  | cons x xs ih =>
    have hlow : (x + 1).toNat = (Limbs.value (x :: xs) + 1) % 2 ^ 32 := by
      rw [value_cons, Nat.add_right_comm, Nat.add_mul_mod_self_left]
      simp [BitVec.toNat_add]
    have hquot : (Limbs.value (x :: xs) + 1) / 2 ^ 32 = (x.toNat + 1) / 2 ^ 32 + Limbs.value xs := by
      rw [value_cons, Nat.add_right_comm, Nat.add_mul_div_left _ _ (Nat.two_pow_pos 32)]
    have hx := x.isLt
    have hfull : x + 1 = 0 ↔ x.toNat = 2 ^ 32 - 1 := by
      rw [← BitVec.toNat_inj, BitVec.toNat_add]
      simp
      omega
    have hxs := value_lt xs
    simp only [incrementLoop]
    split
    case isTrue h =>
      rw [List.length_cons, ← incrementLoop_length xs]
      apply value_cons_of_mod hlow
      have hone : (x.toNat + 1) / 2 ^ 32 = 1 := by rw [hfull.mp h.1]; rfl
      rw [ih, hquot, hone, Nat.add_comm 1, incrementLoop_length]
    case isFalse h =>
      apply value_cons_of_mod hlow
      by_cases hw : x + 1 = 0
      · -- The last word wraps, and nothing is left to carry into.
        have hnil : xs = [] := by
          by_contra hne
          exact h ⟨hw, hne⟩
        subst hnil
        simp [Nat.mod_one]
      · have hzero : (x.toNat + 1) / 2 ^ 32 = 0 := by
          rw [hfull] at hw
          omega
        rw [hquot, hzero, Nat.zero_add, Nat.mod_eq_of_lt hxs]

/-- `--` undoes `++` word by word. -/
theorem incrementLoop_decrementLoop (pn : List (BitVec 32)) : incrementLoop (decrementLoop pn) = pn := by
  induction pn with
  | nil => rfl
  | cons x xs ih =>
    simp only [decrementLoop]
    split
    case isTrue h =>
      have hne : decrementLoop xs ≠ [] := by
        rw [← List.length_pos_iff, decrementLoop_length, List.length_pos_iff]
        exact h.2
      have hx : x = 0 := by bv_omega
      subst hx
      simp [incrementLoop, hne, ih]
    case isFalse h =>
      have hback : x - 1 + 1 = x := BitVec.sub_add_cancel x 1
      have hnot : ¬ (x = 0 ∧ xs ≠ []) := by
        rintro ⟨rfl, hne⟩
        exact h ⟨rfl, hne⟩
      simp only [incrementLoop, hback]
      rw [if_neg hnot]

theorem value_addLoop (carry : BitVec 64) (hc : carry.toNat ≤ 1) (hlen : xs.length = ys.length) :
    Limbs.value (addLoop carry xs ys) =
      (carry.toNat + Limbs.value xs + Limbs.value ys) % 2 ^ (32 * xs.length) := by
  induction xs generalizing carry ys with
  | nil => simp [addLoop, Nat.mod_one]
  | cons x xs ih =>
    cases ys with
    | nil => simp at hlen
    | cons y ys =>
      have hlen' : xs.length = ys.length := by simpa using hlen
      have hx := x.isLt
      have hy := y.isLt
      let n := carry + x.setWidth 64 + y.setWidth 64
      have hn : n.toNat = carry.toNat + x.toNat + y.toNat := by
        simp only [n, BitVec.toNat_add, BitVec.toNat_setWidth]
        omega
      have hsum : carry.toNat + Limbs.value (x :: xs) + Limbs.value (y :: ys) =
          n.toNat + 2 ^ 32 * (Limbs.value xs + Limbs.value ys) := by
        rw [hn, value_cons, value_cons]
        ring
      have hlow : ((n &&& 0xffffffff).setWidth 32).toNat = n.toNat % 2 ^ 32 := by
        have hmask : (n &&& 0xffffffff).toNat = n.toNat % 2 ^ 32 := by
          rw [BitVec.toNat_and]
          exact Nat.and_two_pow_sub_one_eq_mod n.toNat 32
        rw [BitVec.toNat_setWidth, hmask, Nat.mod_mod]
      have hcarry : (n >>> 32).toNat = n.toNat / 2 ^ 32 := by
        rw [BitVec.toNat_ushiftRight, Nat.shiftRight_eq_div_pow]
      have hlength : (addLoop (n >>> 32) xs ys).length = xs.length := by simp [hlen']
      change Limbs.value ((n &&& 0xffffffff).setWidth 32 :: addLoop (n >>> 32) xs ys) = _
      rw [hsum, List.length_cons, ← hlength]
      apply value_cons_of_mod
      · rw [hlow, Nat.add_mul_mod_self_left]
      · rw [ih (n >>> 32) (by rw [hcarry, hn]; omega) hlen', hlength, hcarry,
          Nat.add_mul_div_left _ _ (Nat.two_pow_pos 32), Nat.add_assoc]

theorem compareLoop_swap (yes no : BitVec 32 → BitVec 32 → Bool) (same : Bool) :
    compareLoop (fun x y => yes y x) (fun x y => no y x) same xs ys = compareLoop yes no same ys xs := by
  induction xs generalizing ys with
  | nil => cases ys <;> rfl
  | cons x xs ih =>
    cases ys with
    | nil => rfl
    | cons y ys => simp [compareLoop, ih]

theorem compareLoop_eq (same : Bool) (hlen : xs.length = ys.length) :
    compareLoop (fun x y => x < y) (fun x y => x > y) same xs ys =
      (decide (Limbs.value xs.reverse < Limbs.value ys.reverse) ||
        same && decide (Limbs.value xs.reverse = Limbs.value ys.reverse)) := by
  induction xs generalizing ys with
  | nil =>
    rw [List.eq_nil_of_length_eq_zero hlen.symm]
    simp [compareLoop]
  | cons x xs ih =>
    cases ys with
    | nil => simp at hlen
    | cons y ys =>
      have hlen' : xs.length = ys.length := by simpa using hlen
      have hrev : xs.reverse.length = ys.reverse.length := by simpa using hlen'
      simp only [compareLoop, List.reverse_cons, decide_eq_true_eq]
      rcases lt_trichotomy x.toNat y.toNat with h | h | h
      · have hlt := Limbs.concat_lt hrev (BitVec.lt_def.mpr h)
        simp [BitVec.lt_def, h, hlt]
      · have hxy : x = y := BitVec.eq_of_toNat_eq h
        subst hxy
        simp [ih hlen', Limbs.value_concat, hlen']
      · have hlt := Limbs.concat_lt hrev.symm (BitVec.lt_def.mpr h)
        simp [BitVec.lt_def, h, Nat.not_lt.mpr h.le, Nat.not_lt.mpr hlt.le, hlt.ne']

/-! The operators, as operations on remainders. -/

def Holds (a : BaseUint BITS) (z : ℤ) : Prop := (a.value : ℤ) = z % 2 ^ BITS

section

variable (h32 : 32 ∣ BITS)
include h32

theorem pow_bits (hlen : pn.length = WIDTH BITS) : 2 ^ (32 * pn.length) = 2 ^ BITS := by
  rw [hlen, WIDTH, Nat.mul_div_cancel' h32]

theorem value_bound (a : BaseUint BITS) : a.value < 2 ^ BITS := by
  rw [← pow_bits h32 a.size]
  exact value_lt a.pn

theorem holds_self (a : BaseUint BITS) : Holds a a.value := by
  have hlt : (a.value : ℤ) < 2 ^ BITS := by exact_mod_cast value_bound h32 a
  exact (Int.emod_eq_of_lt (Int.natCast_nonneg _) hlt).symm

theorem holds_of_modEq (h : (a.value : ℤ) ≡ z [ZMOD 2 ^ BITS]) : Holds a z := by
  have hself : (a.value : ℤ) = a.value % 2 ^ BITS := holds_self h32 a
  rw [Holds, hself]
  exact h

theorem value_increment (a : BaseUint BITS) : a.increment.value = (a.value + 1) % 2 ^ BITS := by
  rw [← pow_bits h32 a.size]
  exact value_incrementLoop a.pn

theorem increment_holds (a : BaseUint BITS) : Holds a.increment (a.value + 1) := by
  rw [Holds, value_increment h32]
  push_cast
  rfl

theorem decrement_holds (a : BaseUint BITS) : Holds a.decrement (a.value - 1) := by
  have hback : a.decrement.increment = a := ext (incrementLoop_decrementLoop a.pn)
  have hvalue : (a.value : ℤ) = (a.decrement.value + 1) % 2 ^ BITS := by
    have h := increment_holds h32 a.decrement
    rwa [hback] at h
  apply holds_of_modEq h32
  have hmod : (a.value : ℤ) ≡ a.decrement.value + 1 [ZMOD 2 ^ BITS] := by
    rw [hvalue]
    exact Int.mod_modEq _ _
  have hsub := (hmod.sub_right 1).symm
  rwa [add_sub_cancel_right] at hsub

theorem complement_value (a : BaseUint BITS) : a.complement.value + a.value + 1 = 2 ^ BITS := by
  rw [← pow_bits h32 a.size]
  exact Limbs.value_not a.pn

theorem neg_holds (a : BaseUint BITS) : Holds a.neg (-a.value) := by
  have hnot : (a.complement.value : ℤ) + a.value + 1 = 2 ^ BITS := by exact_mod_cast complement_value h32 a
  have hinc : (a.neg.value : ℤ) = (a.complement.value + 1) % 2 ^ BITS := increment_holds h32 a.complement
  have hrest : (a.complement.value : ℤ) + 1 = -a.value + 2 ^ BITS := by omega
  rw [Holds, hinc, hrest, Int.add_emod_right]

theorem addAssign_value (a b : BaseUint BITS) : (a.addAssign b).value = (a.value + b.value) % 2 ^ BITS := by
  have h := value_addLoop 0 (by decide) (a.size.trans b.size.symm)
  rw [pow_bits h32 a.size] at h
  simpa [value, addAssign] using h

/-- Sums of what holds `y` and what holds `z` hold `y + z`. -/
theorem addAssign_holds (ha : Holds a y) (hb : Holds b z) : Holds (a.addAssign b) (y + z) := by
  have ha' : (a.value : ℤ) = y % 2 ^ BITS := ha
  have hb' : (b.value : ℤ) = z % 2 ^ BITS := hb
  rw [Holds, addAssign_value h32]
  push_cast
  rw [ha', hb', ← Int.add_emod]

theorem subAssign_holds (a b : BaseUint BITS) : Holds (a.subAssign b) (a.value - b.value) := by
  rw [Int.sub_eq_add_neg]
  exact addAssign_holds h32 (holds_self h32 a) (neg_holds h32 b)

end

/-! A `uint64_t` takes two words. -/

section

variable (h64 : 2 ≤ WIDTH BITS)
include h64

theorem assign64_pn (b : BitVec 64) :
    (assign64 BITS b).pn = low b :: high b :: List.replicate (WIDTH BITS - 2) 0 := by
  obtain ⟨n, hn⟩ : ∃ n, WIDTH BITS = n + 2 := ⟨WIDTH BITS - 2, by omega⟩
  simp [assign64, zero, hn, List.replicate_succ]

theorem assign64_value (b : BitVec 64) : (assign64 BITS b).value = b.toNat := by
  have hb := b.isLt
  have hlow : (low b).toNat = b.toNat % 2 ^ 32 := BitVec.toNat_setWidth ..
  have hhigh : (high b).toNat = b.toNat / 2 ^ 32 := by
    rw [high, BitVec.toNat_setWidth, BitVec.toNat_ushiftRight, Nat.shiftRight_eq_div_pow]
    omega
  have hzeros : Limbs.value (List.replicate (WIDTH BITS - 2) (0 : BitVec 32)) = 0 := Limbs.value_zeros
  rw [value, assign64_pn h64, value_cons, value_cons, hzeros, hlow, hhigh]
  omega

theorem two_words (a : BaseUint BITS) :
    ∃ x y rest, a.pn = x :: y :: rest ∧ rest.length = WIDTH BITS - 2 := by
  have hsize := a.size
  rcases hpn : a.pn with _ | ⟨x, _ | ⟨y, rest⟩⟩
  · simp [hpn] at hsize
    omega
  · simp [hpn] at hsize
    omega
  · refine ⟨x, y, rest, rfl, ?_⟩
    simp [hpn] at hsize
    omega

theorem zipAssign64_eq (op : BitVec 32 → BitVec 32 → BitVec 32) (hop : ∀ x, op x 0#32 = x)
    (a : BaseUint BITS) (b : BitVec 64) : zipAssign64 op a b = zipAssign op a (assign64 BITS b) := by
  obtain ⟨x, y, rest, hpn, hrest⟩ := two_words h64 a
  have hsame : List.zipWith op rest (List.replicate (WIDTH BITS - 2) 0#32) = rest := by
    apply List.ext_getElem
    · simp [hrest]
    · intro i hi hi'
      simp [hop]
  apply ext
  simp only [zipAssign64, zipAssign, assign64_pn h64, hpn]
  simp
  exact hsame.symm

theorem equal64_eq (a : BaseUint BITS) (b : BitVec 64) : a.equal64 b = decide (a.value = b.toNat) := by
  obtain ⟨x, y, rest, hpn, hrest⟩ := two_words h64 a
  have hvalue : a.value = b.toNat ↔ a.pn = (assign64 BITS b).pn := by
    rw [← assign64_value h64 b]
    constructor
    · intro h
      rw [eq_of_value h]
    · intro h
      rw [ext h]
  have hzeros : rest = List.replicate (WIDTH BITS - 2) 0 ↔ ∀ w ∈ rest, w = 0 := by
    rw [List.eq_replicate_iff, and_iff_right hrest]
  rw [Bool.eq_iff_iff, decide_eq_true_iff, hvalue, assign64_pn h64, hpn]
  simp only [List.cons.injEq, hzeros, equal64, hpn]
  by_cases hx : x = low b
  · by_cases hy : y = high b
    · simp [hx, hy]
    · simp [hx, hy]
  · simp [hx]

end

/-! Shifts. -/

section

variable {t k shift i : Nat}

/-- `|=` into a word, under a condition, sets the bits of `v` in that word. -/
theorem testBit_orAt (c : Prop) [Decidable c] (v : BitVec 32) (ht : t < 32 * pn.length) :
    (Limbs.value (if c then orAt pn i v else pn)).testBit t ↔
      (Limbs.value pn).testBit t ∨ c ∧ i = t / 32 ∧ v.getLsbD (t % 32) := by
  have hj : t / 32 < pn.length := by omega
  by_cases hc : c
  · simp only [hc, if_true, true_and, testBit_value (w := 32) (by decide)]
    by_cases hi : i = t / 32
    · simp [orAt, hi, hj]
    · simp [orAt, hi]
  · simp [hc]

/-- The bits that the rounds set, one round after the other. -/
theorem testBit_rounds {step : List (BitVec 32) → Nat → List (BitVec 32)} {sets : Nat → Prop}
    (hlen : ∀ pn i, (step pn i).length = pn.length)
    (hstep : ∀ pn i, pn.length = WIDTH BITS →
      ((Limbs.value (step pn i)).testBit t ↔ (Limbs.value pn).testBit t ∨ sets i)) (m : Nat) :
    (Limbs.value ((List.range m).foldl step (zero BITS).pn)).testBit t ↔ ∃ i < m, sets i := by
  induction m with
  | zero =>
    have hzero : Limbs.value (zero BITS).pn = 0 := Limbs.value_zeros
    simp [hzero]
  | succ m ih =>
    have hsize : ((List.range m).foldl step (zero BITS).pn).length = WIDTH BITS := by
      rw [foldl_length step hlen, (zero BITS).size]
    rw [List.range_succ, List.foldl_append, List.foldl_cons, List.foldl_nil, hstep _ m hsize, ih]
    constructor
    · rintro (⟨i, hi, h⟩ | h)
      · exact ⟨i, by omega, h⟩
      · exact ⟨m, by omega, h⟩
    · rintro ⟨i, hi, h⟩
      by_cases him : i = m
      · exact .inr (him ▸ h)
      · exact .inl ⟨i, by omega, h⟩

theorem testBit_shlStep (ht : t < 32 * WIDTH BITS) (hlen : pn.length = WIDTH BITS) :
    (Limbs.value (shlStep a k shift pn i)).testBit t ↔ (Limbs.value pn).testBit t ∨
      (i + k + 1 = t / 32 ∧ shift ≠ 0 ∧ (a.pn.getD i 0).getLsbD (32 - shift + t % 32) ∨
        i + k = t / 32 ∧ shift ≤ t % 32 ∧ (a.pn.getD i 0).getLsbD (t % 32 - shift)) := by
  have ht' : t < 32 * pn.length := by omega
  have hr : t % 32 < 32 := Nat.mod_lt _ (by decide)
  rw [shlStep, testBit_orAt _ _ (by split <;> simp [orAt, ht']), testBit_orAt _ _ ht', or_assoc]
  apply or_congr_right
  rw [BitVec.getLsbD_ushiftRight, BitVec.getLsbD_shiftLeft]
  simp only [hr, decide_true, Bool.true_and, Bool.and_eq_true, Bool.not_eq_true', decide_eq_false_iff_not,
    Nat.not_lt]
  apply or_congr
  · constructor
    · rintro ⟨⟨-, hs⟩, hi, hbit⟩
      exact ⟨hi, hs, hbit⟩
    · rintro ⟨hi, hs, hbit⟩
      exact ⟨⟨by omega, hs⟩, hi, hbit⟩
  · constructor
    · rintro ⟨-, hi, hs, hbit⟩
      exact ⟨hi, hs, hbit⟩
    · rintro ⟨hi, hs, hbit⟩
      exact ⟨by omega, hi, hs, hbit⟩

theorem testBit_shrStep (ht : t < 32 * WIDTH BITS) (hlen : pn.length = WIDTH BITS) :
    (Limbs.value (shrStep a k shift pn i)).testBit t ↔ (Limbs.value pn).testBit t ∨
      (i = t / 32 + k + 1 ∧ shift ≠ 0 ∧ 32 - shift ≤ t % 32 ∧
          (a.pn.getD i 0).getLsbD (t % 32 - (32 - shift)) ∨
        i = t / 32 + k ∧ (a.pn.getD i 0).getLsbD (shift + t % 32)) := by
  have ht' : t < 32 * pn.length := by omega
  have hr : t % 32 < 32 := Nat.mod_lt _ (by decide)
  rw [shrStep, testBit_orAt _ _ (by split <;> simp [orAt, ht']), testBit_orAt _ _ ht', or_assoc]
  apply or_congr_right
  rw [BitVec.getLsbD_ushiftRight, BitVec.getLsbD_shiftLeft]
  simp only [hr, decide_true, Bool.true_and, Bool.and_eq_true, Bool.not_eq_true', decide_eq_false_iff_not,
    Nat.not_lt]
  apply or_congr
  · constructor
    · rintro ⟨⟨hk, hs⟩, hi, hle, hbit⟩
      exact ⟨by omega, hs, hle, hbit⟩
    · rintro ⟨hi, hs, hle, hbit⟩
      exact ⟨⟨by omega, hs⟩, by omega, hle, hbit⟩
  · constructor
    · rintro ⟨hk, hi, hbit⟩
      exact ⟨by omega, hbit⟩
    · rintro ⟨hi, hbit⟩
      exact ⟨by omega, by omega, hbit⟩

end

theorem testBit_word (a : BaseUint BITS) (i r : Nat) (hr : r < 32) :
    a.value.testBit (32 * i + r) = (a.pn.getD i 0).getLsbD r := by
  have hi : (32 * i + r) / 32 = i := by omega
  have hmod : (32 * i + r) % 32 = r := by omega
  rw [value, testBit_value (w := 32) (by decide), hi, hmod]

/-- Beyond the last word there are no bits. -/
theorem word_lt (a : BaseUint BITS) {i r : Nat} (h : (a.pn.getD i 0).getLsbD r) : i < WIDTH BITS := by
  by_contra hi
  have hnone : a.pn[i]? = none := List.getElem?_eq_none (by rw [a.size]; omega)
  simp [List.getD_eq_getElem?_getD, hnone] at h

section

variable (h32 : 32 ∣ BITS)
include h32

theorem bits_eq : 32 * WIDTH BITS = BITS := Nat.mul_div_cancel' h32

theorem shlAssign_value (a : BaseUint BITS) (shift : BitVec 32) :
    (a.shlAssign shift).value = a.value * 2 ^ shift.toNat % 2 ^ BITS := by
  apply Limbs.eq_of_bits (value_bound h32 _) (Nat.mod_lt _ (Nat.two_pow_pos BITS))
  intro t ht
  have hbits := bits_eq h32
  rw [Bool.eq_iff_iff, Nat.testBit_mod_two_pow, Nat.testBit_mul_two_pow]
  simp only [ht, decide_true, Bool.true_and, Bool.and_eq_true, decide_eq_true_eq]
  have hword : t < 32 * WIDTH BITS := by omega
  refine (testBit_rounds (fun _ _ => shlStep_length ..) (fun _ _ => testBit_shlStep hword)
    (WIDTH BITS)).trans ?_
  constructor
  · rintro ⟨i, hi, ⟨hi', hs, hbit⟩ | ⟨hi', hs, hbit⟩⟩
    · have hr := BitVec.lt_of_getLsbD hbit
      have hpos : t - shift.toNat = 32 * i + (32 - shift.toNat % 32 + t % 32) := by omega
      refine ⟨by omega, ?_⟩
      rw [hpos, testBit_word a i _ hr]
      exact hbit
    · have hpos : t - shift.toNat = 32 * i + (t % 32 - shift.toNat % 32) := by omega
      refine ⟨by omega, ?_⟩
      rw [hpos, testBit_word a i _ (by omega)]
      exact hbit
  · rintro ⟨hle, hbit⟩
    refine ⟨(t - shift.toNat) / 32, by omega, ?_⟩
    -- The bit comes from the upper part of a word or from the lower part of it.
    by_cases hs : shift.toNat % 32 ≤ t % 32
    · have hpos : t - shift.toNat = 32 * ((t - shift.toNat) / 32) + (t % 32 - shift.toNat % 32) := by omega
      rw [hpos, testBit_word a _ _ (by omega)] at hbit
      exact .inr ⟨by omega, hs, hbit⟩
    · have hpos : t - shift.toNat = 32 * ((t - shift.toNat) / 32) + (32 - shift.toNat % 32 + t % 32) := by
        omega
      rw [hpos, testBit_word a _ _ (by omega)] at hbit
      exact .inl ⟨by omega, by omega, hbit⟩

theorem shrAssign_value (a : BaseUint BITS) (shift : BitVec 32) :
    (a.shrAssign shift).value = a.value / 2 ^ shift.toNat := by
  have hlt := value_bound h32 a
  apply Limbs.eq_of_bits (value_bound h32 _) (lt_of_le_of_lt (Nat.div_le_self _ _) hlt)
  intro t ht
  have hbits := bits_eq h32
  rw [Bool.eq_iff_iff, Nat.testBit_div_two_pow]
  have hword : t < 32 * WIDTH BITS := by omega
  refine (testBit_rounds (fun _ _ => shrStep_length ..) (fun _ _ => testBit_shrStep hword)
    (WIDTH BITS)).trans ?_
  constructor
  · rintro ⟨i, hi, ⟨hi', hs, hle, hbit⟩ | ⟨hi', hbit⟩⟩
    · have hpos : t + shift.toNat = 32 * i + (t % 32 - (32 - shift.toNat % 32)) := by omega
      rw [hpos, testBit_word a i _ (by omega)]
      exact hbit
    · have hr := BitVec.lt_of_getLsbD hbit
      have hpos : t + shift.toNat = 32 * i + (shift.toNat % 32 + t % 32) := by omega
      rw [hpos, testBit_word a i _ hr]
      exact hbit
  · intro hbit
    by_cases hs : 32 - shift.toNat % 32 ≤ t % 32
    · have hpos : t + shift.toNat =
          32 * (t / 32 + shift.toNat / 32 + 1) + (t % 32 - (32 - shift.toNat % 32)) := by omega
      rw [hpos, testBit_word a _ _ (by omega)] at hbit
      exact ⟨_, word_lt a hbit, .inl ⟨rfl, by omega, hs, hbit⟩⟩
    · have hpos : t + shift.toNat = 32 * (t / 32 + shift.toNat / 32) + (shift.toNat % 32 + t % 32) := by omega
      rw [hpos, testBit_word a _ _ (by omega)] at hbit
      exact ⟨_, word_lt a hbit, .inr ⟨rfl, hbit⟩⟩

theorem shift_over (shift : Nat) (h : BITS ≤ shift) (a : BaseUint BITS) :
    a.value * 2 ^ shift % 2 ^ BITS = 0 ∧ a.value / 2 ^ shift = 0 := by
  have hlt := value_bound h32 a
  have hle : 2 ^ BITS ≤ 2 ^ shift := Nat.pow_le_pow_right (by decide) h
  refine ⟨Nat.mod_eq_zero_of_dvd ?_, Nat.div_eq_of_lt (by omega)⟩
  exact Dvd.dvd.mul_left (Nat.pow_dvd_pow 2 h) a.value

end

/-! Bits of equal positions, and comparisons. -/

theorem zipAssign_value (op : BitVec 32 → BitVec 32 → BitVec 32) (f : Bool → Bool → Bool)
    (hop : ∀ x y, (op x y).toNat = Nat.bitwise f x.toNat y.toNat) (hf : f false false = false)
    (a b : BaseUint BITS) : (zipAssign op a b).value = Nat.bitwise f a.value b.value :=
  Limbs.value_zipWith op f hop hf (a.size.trans b.size.symm)

theorem xorAssign_value (a b : BaseUint BITS) : (a.xorAssign b).value = a.value ^^^ b.value :=
  zipAssign_value _ bne (fun x y => BitVec.toNat_xor x y) rfl a b

theorem andAssign_value (a b : BaseUint BITS) : (a.andAssign b).value = a.value &&& b.value :=
  zipAssign_value _ and (fun x y => BitVec.toNat_and x y) rfl a b

theorem orAssign_value (a b : BaseUint BITS) : (a.orAssign b).value = a.value ||| b.value :=
  zipAssign_value _ or (fun x y => BitVec.toNat_or x y) rfl a b

theorem less_eq (a b : BaseUint BITS) : a.less b = decide (a.value < b.value) := by
  have hlen : a.pn.reverse.length = b.pn.reverse.length := by simp [a.size, b.size]
  rw [less, compareLoop_eq false hlen, List.reverse_reverse, List.reverse_reverse, Bool.false_and,
    Bool.or_false]
  rfl

theorem lessEq_eq (a b : BaseUint BITS) : a.lessEq b = decide (a.value ≤ b.value) := by
  have hlen : a.pn.reverse.length = b.pn.reverse.length := by simp [a.size, b.size]
  rw [Bool.eq_iff_iff]
  simp [lessEq, value, compareLoop_eq true hlen, le_iff_lt_or_eq]

theorem greater_eq (a b : BaseUint BITS) : a.greater b = b.less a :=
  compareLoop_swap (fun x y => x < y) (fun x y => x > y) false

theorem greaterEq_eq (a b : BaseUint BITS) : a.greaterEq b = b.lessEq a :=
  compareLoop_swap (fun x y => x < y) (fun x y => x > y) true

theorem equal_eq (a b : BaseUint BITS) : a.equal b = decide (a.value = b.value) := by
  have hzip : ∀ {xs ys : List (BitVec 32)}, xs.length = ys.length →
      (((xs.zip ys).all fun w => w.1 == w.2) = true ↔ xs = ys) := by
    intro xs ys hlen
    induction xs generalizing ys with
    | nil =>
      rw [List.eq_nil_of_length_eq_zero hlen.symm]
      simp
    | cons x xs ih =>
      cases ys with
      | nil => simp at hlen
      | cons y ys =>
        have htail := ih (by simpa using hlen)
        simp only [List.zip_cons_cons, List.all_cons, Bool.and_eq_true, htail, beq_iff_eq, List.cons.injEq]
  rw [Bool.eq_iff_iff, decide_eq_true_iff]
  refine (hzip (a.size.trans b.size.symm)).trans ⟨fun h => ?_, fun h => ?_⟩
  · rw [ext h]
  · rw [eq_of_value h]

theorem isZero_eq (a : BaseUint BITS) : a.isZero = decide (a.value = 0) := by
  have hzero : (zero BITS).value = 0 := Limbs.value_zeros
  have hpn : a.value = 0 ↔ a.pn = (zero BITS).pn := by
    rw [← hzero]
    exact ⟨fun h => by rw [eq_of_value h], fun h => by rw [ext h]⟩
  rw [Bool.eq_iff_iff, decide_eq_true_iff, hpn, zero, List.eq_replicate_iff, and_iff_right a.size]
  simp [isZero]

/-! Text. -/

theorem words_wordBytes (pn : List (BitVec 32)) : words (pn.flatMap wordBytes) = pn := by
  induction pn with
  | nil => rfl
  | cons x xs ih =>
    have hx : x.extractLsb' 24 8 ++ x.extractLsb' 16 8 ++ x.extractLsb' 8 8 ++ x.extractLsb' 0 8 = x := by
      ext i hi
      simp only [BitVec.getElem_append, BitVec.getElem_extractLsb']
      grind
    simp only [List.flatMap_cons, wordBytes, List.cons_append, List.nil_append, words, hx, ih]

/-- What `SetHex` needs of a character: it is a digit, and no mark of a base. -/
def DigitChar (c : UInt8) : Prop :=
  c ≠ 0 ∧ isSpace c = false ∧ toLowerC c ≠ 0x78 ∧ (phexdigit c ≠ 0 ∨ c = 0x30)

instance (c : UInt8) : Decidable (DigitChar c) := inferInstanceAs (Decidable (_ ∧ _))

theorem hexDigit : ∀ n < 16, DigitChar (letter (ascii "0123456789abcdef") n) ∧
    phexdigit (letter (ascii "0123456789abcdef") n) = BitVec.ofNat 8 n := by
  decide

theorem high_lt (b : BitVec 8) : (b >>> 4).toNat < 16 := by
  rw [BitVec.toNat_ushiftRight, Nat.shiftRight_eq_div_pow]
  omega

theorem low_lt (b : BitVec 8) : (b &&& 15).toNat < 16 := by
  rw [BitVec.toNat_and]
  exact Nat.and_lt_two_pow _ (by decide : (15#8).toNat < 2 ^ 4)

theorem hexByte_digits (b : BitVec 8) : ∀ c ∈ hexByte b, DigitChar c := by
  intro c hc
  obtain rfl | hc := List.mem_cons.mp hc
  · exact (hexDigit _ (high_lt b)).1
  · obtain rfl := List.mem_singleton.mp hc
    exact (hexDigit _ (low_lt b)).1

theorem hexByte_value (b : BitVec 8) :
    ∃ c d, hexByte b = [d, c] ∧ phexdigit c ||| phexdigit d <<< 4 = b := by
  refine ⟨_, _, rfl, ?_⟩
  rw [(hexDigit _ (low_lt b)).2, (hexDigit _ (high_lt b)).2, BitVec.ofNat_toNat, BitVec.ofNat_toNat,
    BitVec.setWidth_eq, BitVec.setWidth_eq]
  have hhigh : b >>> 4 <<< 4 = b &&& 240 := by
    ext i hi
    have hmask : ∀ j < 8, (240#8).getLsbD j = decide (4 ≤ j) := by decide
    simp only [BitVec.getElem_shiftLeft, BitVec.getElem_and]
    grind
  rw [hhigh, ← BitVec.and_or_distrib_left]
  exact BitVec.and_allOnes

theorem writeDigits_hex (mem : List (BitVec 8)) :
    writeDigits mem.length (mem.reverse.flatMap hexByte).reverse = mem := by
  rw [List.reverse_flatMap, List.reverse_reverse]
  induction mem with
  | nil => rfl
  | cons b mem ih =>
    obtain ⟨c, d, hcd, hb⟩ := hexByte_value b
    simp [hcd, writeDigits, hb, ih]

theorem getHex_digits (a : BaseUint BITS) : ∀ c ∈ a.getHex, DigitChar c := by
  intro c hc
  obtain ⟨b, -, hb⟩ := List.mem_flatMap.mp hc
  exact hexByte_digits b c hb

theorem bytes_length (a : BaseUint BITS) : a.bytes.length = WIDTH BITS * 4 := by
  have hflat : ∀ pn : List (BitVec 32), (pn.flatMap wordBytes).length = pn.length * 4 := by
    intro pn
    induction pn with
    | nil => rfl
    | cons x xs ih =>
      simp [wordBytes]
      omega
  rw [bytes, hflat, a.size]

/-- Digits have no space before them and no mark of a base, and they are read to the end. -/
theorem setHex_digits (str : List UInt8) (h : ∀ c ∈ str, DigitChar c) :
    (setHex BITS str).pn = words (writeDigits (WIDTH BITS * 4) str.reverse) := by
  have hstr : cStr str = str := by
    apply List.takeWhile_eq_self_iff.mpr
    intro c hc
    simpa using (h c hc).1
  have hspace : str.dropWhile isSpace = str := by
    cases str with
    | nil => rfl
    | cons c str => exact List.dropWhile_cons_of_neg (by simp [(h c (by simp)).2.1])
  have hmark : skip0x str = str := by
    apply if_neg
    rintro ⟨-, hx⟩
    rcases hnext : str[1]? with _ | c
    · simp [hnext, toLowerC] at hx
    · refine (h c (List.mem_of_getElem? hnext)).2.2.1 ?_
      simpa [hnext] using hx
  have hall : (str.takeWhile fun c => phexdigit c ≠ 0 || c == 0x30) = str := by
    apply List.takeWhile_eq_self_iff.mpr
    intro c hc
    simpa using (h c hc).2.2.2
  simp only [setHex, hstr, hspace, hmark, hall]

theorem setHex_getHex (a : BaseUint BITS) : setHex BITS a.getHex = a := by
  apply ext
  rw [setHex_digits _ (getHex_digits a), getHex, ← bytes_length a, writeDigits_hex]
  exact words_wordBytes a.pn

/-- The operators of `base_uint<BITS>` are those of the integers modulo 2^BITS, and text reads back. -/
structure Modular (BITS : Nat) : Prop where
  range : ∀ a : BaseUint BITS, a.value < 2 ^ BITS
  unique : ∀ a b : BaseUint BITS, a.value = b.value → a = b
  add : ∀ a b : BaseUint BITS, ((a.addAssign b).value : ℤ) = (a.value + b.value) % 2 ^ BITS
  sub : ∀ a b : BaseUint BITS, ((a.subAssign b).value : ℤ) = (a.value - b.value) % 2 ^ BITS
  neg : ∀ a : BaseUint BITS, (a.neg.value : ℤ) = (-a.value) % 2 ^ BITS
  increment : ∀ a : BaseUint BITS, (a.increment.value : ℤ) = (a.value + 1) % 2 ^ BITS
  decrement : ∀ a : BaseUint BITS, (a.decrement.value : ℤ) = (a.value - 1) % 2 ^ BITS
  postIncrement : ∀ a : BaseUint BITS,
    a.postIncrement.1 = a ∧ (a.postIncrement.2.value : ℤ) = (a.value + 1) % 2 ^ BITS
  postDecrement : ∀ a : BaseUint BITS,
    a.postDecrement.1 = a ∧ (a.postDecrement.2.value : ℤ) = (a.value - 1) % 2 ^ BITS
  assign64 : ∀ b : BitVec 64, (assign64 BITS b).value = b.toNat
  add64 : ∀ (a : BaseUint BITS) (b : BitVec 64),
    ((a.addAssign64 b).value : ℤ) = (a.value + b.toNat) % 2 ^ BITS
  sub64 : ∀ (a : BaseUint BITS) (b : BitVec 64),
    ((a.subAssign64 b).value : ℤ) = (a.value - b.toNat) % 2 ^ BITS
  shl : ∀ (a : BaseUint BITS) (shift : BitVec 32),
    (a.shlAssign shift).value = a.value * 2 ^ shift.toNat % 2 ^ BITS
  shr : ∀ (a : BaseUint BITS) (shift : BitVec 32), (a.shrAssign shift).value = a.value / 2 ^ shift.toNat
  shift_over : ∀ (a : BaseUint BITS) (shift : BitVec 32), BITS ≤ shift.toNat →
    (a.shlAssign shift).value = 0 ∧ (a.shrAssign shift).value = 0
  complement : ∀ a : BaseUint BITS, a.complement.value = 2 ^ BITS - 1 - a.value
  xor : ∀ a b : BaseUint BITS, (a.xorAssign b).value = a.value ^^^ b.value
  and : ∀ a b : BaseUint BITS, (a.andAssign b).value = a.value &&& b.value
  or : ∀ a b : BaseUint BITS, (a.orAssign b).value = a.value ||| b.value
  xor64 : ∀ (a : BaseUint BITS) (b : BitVec 64), (a.xorAssign64 b).value = a.value ^^^ b.toNat
  or64 : ∀ (a : BaseUint BITS) (b : BitVec 64), (a.orAssign64 b).value = a.value ||| b.toNat
  less : ∀ a b : BaseUint BITS, a.less b = decide (a.value < b.value)
  lessEq : ∀ a b : BaseUint BITS, a.lessEq b = decide (a.value ≤ b.value)
  greater : ∀ a b : BaseUint BITS, a.greater b = decide (b.value < a.value)
  greaterEq : ∀ a b : BaseUint BITS, a.greaterEq b = decide (b.value ≤ a.value)
  equal : ∀ a b : BaseUint BITS, a.equal b = decide (a.value = b.value)
  notEqual : ∀ a b : BaseUint BITS, a.notEqual b = decide (a.value ≠ b.value)
  equal64 : ∀ (a : BaseUint BITS) (b : BitVec 64), a.equal64 b = decide (a.value = b.toNat)
  notEqual64 : ∀ (a : BaseUint BITS) (b : BitVec 64), a.notEqual64 b = decide (a.value ≠ b.toNat)
  isZero : ∀ a : BaseUint BITS, a.isZero = decide (a.value = 0)
  text : ∀ a : BaseUint BITS, setHex BITS a.getHex = a

/-- Two words and whole words are all that the operators need. -/
theorem modular_of_width (h32 : 32 ∣ BITS) (h64 : 2 ≤ WIDTH BITS) : Modular BITS where
  range := value_bound h32
  unique _ _ := eq_of_value
  add a b := addAssign_holds h32 (holds_self h32 a) (holds_self h32 b)
  sub := subAssign_holds h32
  neg := neg_holds h32
  increment := increment_holds h32
  decrement := decrement_holds h32
  postIncrement a := ⟨rfl, increment_holds h32 a⟩
  postDecrement a := ⟨rfl, decrement_holds h32 a⟩
  assign64 := assign64_value h64
  add64 a b := by
    rw [← assign64_value h64 b]
    exact addAssign_holds h32 (holds_self h32 a) (holds_self h32 _)
  sub64 a b := by
    rw [← assign64_value h64 b]
    exact subAssign_holds h32 a _
  shl := shlAssign_value h32
  shr := shrAssign_value h32
  shift_over a shift h := by
    rw [shlAssign_value h32, shrAssign_value h32]
    exact shift_over h32 shift.toNat h a
  complement a := by
    have hnot := complement_value h32 a
    omega
  xor := xorAssign_value
  and := andAssign_value
  or := orAssign_value
  xor64 a b := by
    rw [xorAssign64, zipAssign64_eq h64 _ (fun x => BitVec.xor_zero), ← assign64_value h64 b]
    exact xorAssign_value a _
  or64 a b := by
    rw [orAssign64, zipAssign64_eq h64 _ (fun x => BitVec.or_zero), ← assign64_value h64 b]
    exact orAssign_value a _
  less := less_eq
  lessEq := lessEq_eq
  greater a b := (greater_eq a b).trans (less_eq b a)
  greaterEq a b := (greaterEq_eq a b).trans (lessEq_eq b a)
  equal := equal_eq
  notEqual a b := by simp [notEqual, equal_eq]
  equal64 := equal64_eq h64
  notEqual64 a b := by simp [notEqual64, equal64_eq h64]
  isZero := isZero_eq
  text := setHex_getHex

theorem baseUint_modular (hBITS : BITS = 160 ∨ BITS = 256 ∨ BITS = 512) : Modular BITS := by
  rcases hBITS with rfl | rfl | rfl
  all_goals exact modular_of_width (by decide) (by decide)

/-- The width of hashes and of chain trust. -/
theorem uint256_modular : Modular 256 := baseUint_modular (.inr (.inl rfl))

end Triangles.BaseUint
