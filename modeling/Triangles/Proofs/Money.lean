import Mathlib.Data.List.TakeWhile
import Mathlib.Data.Rat.Cast.Order
import Mathlib.Tactic.Linarith
import Mathlib.Tactic.Ring
import Triangles.Model.Transaction

/-! Which amounts survive being printed. -/

namespace Triangles

/-- The text is a decimal numeral of `q` with at least two digits after the point. -/
def Numeral (str : List Char) (q : ℚ) : Prop :=
  ∃ whole frac, str = whole ++ '.' :: frac ∧ whole ≠ [] ∧ (∀ c ∈ whole, c.isDigit) ∧
    (∀ c ∈ frac, c.isDigit) ∧ 2 ≤ frac.length ∧
    q = Nat.ofDigitChars 10 whole 0 + Nat.ofDigitChars 10 frac 0 / 10 ^ frac.length

/-! Digit strings. -/

theorem leftpad_isDigit (k n : Nat) : ∀ c ∈ List.leftpad k '0' (Nat.toDigits 10 n), c.isDigit := by
  intro c hc
  rcases List.mem_append.mp hc with hc | hc
  · rw [List.eq_of_mem_replicate hc]
    rfl
  · exact Nat.isDigit_of_mem_toDigits (by decide) le_rfl hc

theorem ofDigitChars_leftpad (k n : Nat) :
    Nat.ofDigitChars 10 (List.leftpad k '0' (Nat.toDigits 10 n)) 0 = n := by
  simp [List.leftpad, Nat.ofDigitChars_append]

theorem length_leftpad {k n : Nat} (hk : 0 < k) (h : n < 10 ^ k) :
    (List.leftpad k '0' (Nat.toDigits 10 n)).length = k := by
  have := (Nat.length_toDigits_le_iff (b := 10) (by decide) hk).mpr h
  rw [List.length_leftpad]
  omega

/-! Trimming. -/

/-- The trimmed digits are at least two, without the zeros that went. -/
theorem trimZeros_spec (whole rev : List Char) (hdig : ∀ c ∈ rev, c.isDigit)
    (hlen : 2 ≤ rev.length) :
    ∃ m rest, rev = List.replicate m '0' ++ rest ∧ 2 ≤ rest.length ∧
      (rest.length = 2 ∨ rest.head? ≠ some '0') ∧
      trimZeros (rev ++ '.' :: whole) = rest ++ '.' :: whole := by
  induction rev with
  | nil => simp at hlen
  | cons c rev ih =>
    match rev, hlen with
    | [d], _ =>
      refine ⟨0, [c, d], rfl, le_rfl, .inl rfl, ?_⟩
      have hdot : ('.' : Char).isDigit = false := by decide
      simp [trimZeros, hdot]
    | d :: e :: rev, _ =>
      have he : e.isDigit = true := hdig e (by simp)
      by_cases hc : c = '0'
      · obtain ⟨m, rest, heq, hl, hhead, htrim⟩ :=
          ih (fun x hx => hdig x (List.mem_cons_of_mem _ hx)) (by simp)
        refine ⟨m + 1, rest, ?_, hl, hhead, ?_⟩
        · rw [List.replicate_succ, List.cons_append, ← heq, hc]
        · simpa [trimZeros, hc, he] using htrim
      · refine ⟨0, c :: d :: e :: rev, rfl, by simp, .inr (by simpa using hc), ?_⟩
        simp [trimZeros, hc]

/-- An amount that is not negative, printed: its coins, and the remainder as eight digits without
the zeros at their end. -/
theorem formatMoney_eq {n : Int} (h : 0 ≤ n) :
    ∃ m frac, List.leftpad 8 '0' (Nat.toDigits 10 (n % COIN).toNat) =
        frac ++ List.replicate m '0' ∧ 2 ≤ frac.length ∧
      (frac.length = 2 ∨ frac.getLast? ≠ some '0') ∧
      formatMoney n false = Nat.toDigits 10 (n / COIN).toNat ++ '.' :: frac := by
  have hlt : (n % COIN).toNat < 10 ^ 8 := by
    have hc : COIN = 1000000 := rfl
    rw [hc]
    omega
  have hlen := length_leftpad (k := 8) (by decide) hlt
  obtain ⟨m, rest, hrev, hl, hhead, htrim⟩ :=
    trimZeros_spec (Nat.toDigits 10 (n / COIN).toNat).reverse
      (List.leftpad 8 '0' (Nat.toDigits 10 (n % COIN).toNat)).reverse
      (fun c hc => leftpad_isDigit 8 _ c (List.mem_reverse.mp hc))
      (by rw [List.length_reverse, hlen]; decide)
  refine ⟨m, rest.reverse, ?_, by simpa using hl, by simpa using hhead, ?_⟩
  · rw [← List.reverse_reverse (List.leftpad 8 '0' _), hrev, List.reverse_append,
      List.reverse_replicate]
  · have habs : (if 0 < n then n else -n) = n := by split <;> omega
    have hneg : ¬n < 0 := by omega
    simp only [formatMoney, habs, hneg, ↓reduceIte, Bool.false_and, Bool.false_eq_true,
      List.reverse_append, List.reverse_cons, List.append_assoc, List.cons_append, List.nil_append,
      htrim, List.reverse_reverse]

/-! Scanning. -/

/-- A digit is added in its place, and the next place is a tenth. -/
theorem scanUnits_succ {c : Char} (hc : c.isDigit = true) (k u : Nat) (frac : List Char) :
    scanUnits (10 ^ (k + 1)) u (c :: frac) =
      scanUnits (10 ^ k) (u + 10 ^ (k + 1) * (c.toNat - '0'.toNat)) frac := by
  have hdiv : 10 ^ (k + 1) / 10 = 10 ^ k := by
    rw [Nat.pow_succ, Nat.mul_div_cancel _ (by decide)]
  rw [scanUnits, hc, Bool.true_and, decide_eq_true (Nat.pow_pos (by decide)), if_pos rfl, hdiv]

theorem scanUnits_last {c : Char} (hc : c.isDigit = true) (u : Nat) (frac : List Char) :
    scanUnits (10 ^ 0) u (c :: frac) = (u + (c.toNat - '0'.toNat), frac) := by
  cases frac <;> simp [scanUnits, hc]

/-- Digits, as many as there are multipliers left. -/
theorem scanUnits_digits {frac : List Char} (hdig : ∀ c ∈ frac, c.isDigit) (k u : Nat)
    (hlen : frac.length ≤ k + 1) :
    scanUnits (10 ^ k) u frac =
      (u + Nat.ofDigitChars 10 frac 0 * 10 ^ (k + 1 - frac.length), []) := by
  induction frac generalizing k u with
  | nil => simp [scanUnits]
  | cons c frac ih =>
    have hc : c.isDigit = true := hdig c (by simp)
    have hrest : ∀ x ∈ frac, x.isDigit := fun x hx => hdig x (List.mem_cons_of_mem _ hx)
    simp only [List.length_cons] at hlen
    cases k with
    | zero =>
      have hnil : frac = [] := List.length_eq_zero_iff.mp (by omega)
      rw [scanUnits_last hc]
      simp [hnil, Nat.ofDigitChars_cons]
    | succ k =>
      rw [scanUnits_succ hc, ih hrest k _ (by omega), Nat.ofDigitChars_cons,
        @Nat.ofDigitChars_eq_ofDigitChars_zero _ (10 * 0 + _)]
      have hpow : 10 ^ (k + 1) = 10 ^ frac.length * 10 ^ (k + 1 - frac.length) := by
        rw [← Nat.pow_add, Nat.add_sub_cancel' (by omega)]
      have hsub : k + 1 + 1 - (c :: frac).length = k + 1 - frac.length := by
        simp only [List.length_cons]
        omega
      rw [hsub, hpow]
      congr 1
      ring

/-- More digits than multipliers leave a digit. -/
theorem scanUnits_more {frac : List Char} (hdig : ∀ c ∈ frac, c.isDigit) (k u : Nat)
    (hlen : k + 1 < frac.length) :
    ∃ u' c p, scanUnits (10 ^ k) u frac = (u', c :: p) ∧ c.isDigit = true := by
  induction frac generalizing k u with
  | nil => simp at hlen
  | cons c frac ih =>
    have hc : c.isDigit = true := hdig c (by simp)
    have hrest : ∀ x ∈ frac, x.isDigit := fun x hx => hdig x (List.mem_cons_of_mem _ hx)
    simp only [List.length_cons] at hlen
    cases k with
    | zero =>
      match frac, hlen with
      | d :: frac, _ => exact ⟨_, d, frac, scanUnits_last hc u _, hrest d (by simp)⟩
    | succ k =>
      rw [scanUnits_succ hc]
      exact ih hrest k _ (by omega)

theorem digit_ne {c : Char} (h : c.isDigit = true) :
    c ≠ '.' ∧ c ≠ '\x00' ∧ isSpaceChar c = false := by
  refine ⟨?_, ?_, ?_⟩
  · rintro rfl
    exact absurd h (by decide)
  · rintro rfl
    exact absurd h (by decide)
  · cases hs : isSpaceChar c with
    | false => rfl
    | true =>
      simp only [isSpaceChar, Bool.or_eq_true, decide_eq_true_eq] at hs
      rcases hs with ((((rfl | rfl) | rfl) | rfl) | rfl) | rfl <;> exact absurd h (by decide)

theorem scanMoney_digits {whole : List Char} (hdig : ∀ c ∈ whole, c.isDigit)
    (strWhole frac : List Char) :
    scanMoney strWhole (whole ++ '.' :: frac) =
      some (strWhole ++ whole, scanUnits (10 ^ 5) 0 frac) := by
  induction whole generalizing strWhole with
  | nil => simp [scanMoney, CENT]
  | cons c whole ih =>
    have hc : c.isDigit = true := hdig c (by simp)
    obtain ⟨hdot, -, hspace⟩ := digit_ne hc
    simp only [List.cons_append, scanMoney, hdot, hspace, hc, Bool.not_true, Bool.false_eq_true,
      ↓reduceIte]
    rw [ih fun x hx => hdig x (List.mem_cons_of_mem _ hx)]
    simp

theorem parseMoney_digits {whole frac : List Char} (hne : whole ≠ [])
    (hw : ∀ c ∈ whole, c.isDigit) (hf : ∀ c ∈ frac, c.isDigit) :
    parseMoney (whole ++ '.' :: frac) =
      let (nUnits, p) := scanUnits (10 ^ 5) 0 frac
      if !p.all isSpaceChar then none
      else if 10 < whole.length then none
      else if COIN < nUnits then none
      else some (Nat.ofDigitChars 10 whole 0 * COIN + nUnits) := by
  have hall : ∀ c ∈ whole ++ '.' :: frac, c ≠ '\x00' := by
    intro c hc
    rcases List.mem_append.mp hc with hc | hc
    · exact (digit_ne (hw c hc)).2.1
    · rcases List.mem_cons.mp hc with rfl | hc
      · decide
      · exact (digit_ne (hf c hc)).2.1
  have htake : (whole ++ '.' :: frac).takeWhile (· ≠ '\x00') = whole ++ '.' :: frac :=
    List.takeWhile_eq_self_iff.mpr fun c hc => by simpa using hall c hc
  obtain ⟨c, rest, rfl⟩ := List.exists_cons_of_ne_nil hne
  have hdrop : (c :: rest ++ '.' :: frac).dropWhile isSpaceChar = c :: rest ++ '.' :: frac := by
    rw [List.cons_append, List.dropWhile_cons, (digit_ne (hw c (by simp))).2.2]
    simp
  rw [parseMoney, htake, hdrop, scanMoney_digits hw, List.nil_append]

/-- A number whose last digit is no zero. -/
theorem ofDigitChars_mod_ten {frac : List Char} (hdig : ∀ c ∈ frac, c.isDigit) (hne : frac ≠ [])
    (hlast : frac.getLast? ≠ some '0') : Nat.ofDigitChars 10 frac 0 % 10 ≠ 0 := by
  obtain ⟨init, c, rfl⟩ := (List.eq_nil_or_concat frac).resolve_left hne
  have hc : c.isDigit = true := hdig c (by simp)
  have hc0 : c ≠ '0' := by simpa using hlast
  simp only [Char.isDigit, Bool.and_eq_true, decide_eq_true_eq, UInt32.le_iff_toNat_le] at hc
  have hne0 : c.toNat ≠ 48 := fun h => hc0 (Char.toNat_inj.mp h)
  have hval : c.val.toNat = c.toNat := rfl
  have hzero : '0'.val.toNat = 48 := rfl
  have hnine : '9'.val.toNat = 57 := rfl
  have hsub : '0'.toNat = 48 := rfl
  rw [List.concat_eq_append, Nat.ofDigitChars_append, Nat.ofDigitChars_cons, Nat.ofDigitChars_nil]
  omega

/-- What comes back of a printed amount: the remainder has lost two decimals, or is refused. -/
theorem parseMoney_formatMoney {n : Int} (h : 0 ≤ n) (hmax : n ≤ MAX_MONEY) :
    parseMoney (formatMoney n false) =
      if n % COIN % 100 = 0 then some (n / COIN * COIN + n % COIN / 100) else none := by
  have hc : COIN = 1000000 := rfl
  have hm : MAX_MONEY = 120000000000 := rfl
  rw [hm] at hmax
  obtain ⟨m, frac, hpad, hlen, hlast, hformat⟩ := formatMoney_eq h
  have hq0 : 0 ≤ n / COIN ∧ n / COIN < 10 ^ 10 := by rw [hc]; omega
  have hr0 : 0 ≤ n % COIN ∧ n % COIN < 10 ^ 6 := by rw [hc]; omega
  have hwlen : (Nat.toDigits 10 (n / COIN).toNat).length ≤ 10 :=
    (Nat.length_toDigits_le_iff (by decide) (by decide)).mpr (by omega)
  have hfrac : ∀ c ∈ frac, c.isDigit := fun c hcf =>
    leftpad_isDigit 8 (n % COIN).toNat c (hpad ▸ List.mem_append_left _ hcf)
  have hpadlen := length_leftpad (k := 8) (n := (n % COIN).toNat) (by decide) (by omega)
  have hvalue := ofDigitChars_leftpad 8 (n % COIN).toNat
  rw [hpad, List.length_append, List.length_replicate] at hpadlen
  rw [hpad, Nat.ofDigitChars_append, Nat.ofDigitChars_replicate_zero] at hvalue
  rw [hformat, parseMoney_digits Nat.toDigits_ne_nil
    (fun c hcw => Nat.isDigit_of_mem_toDigits (by decide) le_rfl hcw) hfrac]
  by_cases hlong : 6 < frac.length
  · have hmod := ofDigitChars_mod_ten hfrac (by rintro rfl; simp at hlong)
      (hlast.resolve_left (by omega))
    obtain ⟨u', c, p, hscan, hcd⟩ := scanUnits_more hfrac 5 0 (by omega)
    have hr : ¬n % COIN % 100 = 0 := by
      have hm : m = 0 ∨ m = 1 := by omega
      rcases hm with rfl | rfl <;> omega
    rw [hscan]
    simp [(digit_ne hcd).2.2, hr]
  · have hscan := scanUnits_digits hfrac 5 0 (by omega)
    have hpow : 10 ^ m = 100 * 10 ^ (6 - frac.length) := by
      have : m = 2 + (6 - frac.length) := by omega
      rw [this, Nat.pow_add]
    rw [hpow] at hvalue
    have hunits : 100 * (Nat.ofDigitChars 10 frac 0 * 10 ^ (5 + 1 - frac.length)) =
        (n % COIN).toNat := by
      rw [← hvalue]
      ring
    generalize Nat.ofDigitChars 10 frac 0 * 10 ^ (5 + 1 - frac.length) = units at hscan hunits
    have hr : n % COIN % 100 = 0 := by omega
    have hle : ¬COIN < ((0 + units : Nat) : Int) := by rw [hc]; omega
    have hq : ((n / COIN).toNat : Int) = n / COIN := Int.toNat_of_nonneg hq0.1
    rw [hscan]
    simp only [List.all_nil, Bool.not_true, Bool.false_eq_true, ↓reduceIte, hle, hr,
      Nat.ofDigitChars_ten_toDigits, hq, Nat.not_lt.mpr hwlen]
    congr 2
    omega

/-- What a printed amount denotes: the remainder counts hundred-millionths. -/
theorem formatMoney_numeral {n : Int} (h : 0 ≤ n) :
    Numeral (formatMoney n false) ((n / COIN : Int) + (n % COIN : Int) / 10 ^ 8) := by
  obtain ⟨m, frac, hpad, hlen, -, hformat⟩ := formatMoney_eq h
  have hc : COIN = 1000000 := rfl
  have hq0 : 0 ≤ n / COIN := by rw [hc]; omega
  have hr0 : 0 ≤ n % COIN ∧ n % COIN < 10 ^ 6 := by rw [hc]; omega
  have hpadlen := length_leftpad (k := 8) (n := (n % COIN).toNat) (by decide) (by omega)
  have hvalue := ofDigitChars_leftpad 8 (n % COIN).toNat
  rw [hpad, List.length_append, List.length_replicate] at hpadlen
  rw [hpad, Nat.ofDigitChars_append, Nat.ofDigitChars_replicate_zero] at hvalue
  refine ⟨_, frac, hformat, Nat.toDigits_ne_nil,
    fun c hcw => Nat.isDigit_of_mem_toDigits (by decide) le_rfl hcw,
    fun c hcf => leftpad_isDigit 8 (n % COIN).toNat c (hpad ▸ List.mem_append_left _ hcf), hlen, ?_⟩
  have hq : (((n / COIN).toNat : Int) : ℚ) = (n / COIN : Int) := by
    rw [Int.toNat_of_nonneg hq0]
  have hr : ((n % COIN : Int) : ℚ) = 10 ^ m * Nat.ofDigitChars 10 frac 0 := by
    have : n % COIN = ((10 ^ m * Nat.ofDigitChars 10 frac 0 : Nat) : Int) := by
      rw [hvalue, Int.toNat_of_nonneg hr0.1]
    rw [this]
    push_cast
    rfl
  have hpow : (10 : ℚ) ^ 8 = 10 ^ m * 10 ^ frac.length := by
    rw [← pow_add, Nat.add_comm, hpadlen]
  have hne : (10 : ℚ) ^ m ≠ 0 := pow_ne_zero m (by norm_num)
  rw [Nat.ofDigitChars_ten_toDigits, hr, hpow, mul_div_mul_left _ _ hne, ← hq]
  push_cast
  rfl

theorem Numeral.unique {str : List Char} {p q : ℚ} (hp : Numeral str p) (hq : Numeral str q) :
    p = q := by
  obtain ⟨w, f, rfl, -, hw, -, -, rfl⟩ := hp
  obtain ⟨w', f', heq, -, hw', -, -, rfl⟩ := hq
  have htake : ∀ v g : List Char, (∀ c ∈ v, c.isDigit) →
      (v ++ '.' :: g).takeWhile Char.isDigit = v := by
    intro v g hv
    have hdot : ('.' : Char).isDigit = false := by decide
    rw [List.takeWhile_append_of_pos hv, List.takeWhile_cons, hdot]
    simp
  have hww : w = w' := by rw [← htake w f hw, heq, htake w' f' hw']
  subst hww
  obtain rfl : f = f' := by simpa using heq
  rfl

/-- The text denotes the amount exactly when there is no remainder. -/
theorem formatMoney_numeral_iff {n : Int} (h : 0 ≤ n) :
    Numeral (formatMoney n false) ((n : ℚ) / COIN) ↔ n % COIN = 0 := by
  have hc : (COIN : ℚ) = 1000000 := by norm_num [COIN]
  have hsplit : (n : ℚ) = COIN * (n / COIN : Int) + (n % COIN : Int) := by
    rw [← Int.cast_mul, ← Int.cast_add, Int.mul_ediv_add_emod]
  have hnum := formatMoney_numeral h
  constructor
  · intro hn
    have heq := hn.unique hnum
    rw [hc] at hsplit heq
    have hzero : ((n % COIN : Int) : ℚ) = 0 := by linarith
    exact_mod_cast hzero
  · intro hzero
    rw [hzero] at hsplit hnum
    have hq : (n : ℚ) / COIN = (n / COIN : Int) + (0 : Int) / 10 ^ 8 := by
      rw [hc] at hsplit ⊢
      rw [hsplit]
      push_cast
      ring
    rwa [hq]

/-- An amount survives being printed and parsed, and its text denotes it, exactly when it is a whole
number of coins. -/
theorem money_text_iff {n : Int} (h : 0 ≤ n) (hmax : n ≤ MAX_MONEY) :
    (parseMoney (formatMoney n false) = some n ∧ Numeral (formatMoney n false) ((n : ℚ) / COIN)) ↔
      n % COIN = 0 := by
  have hsplit := Int.mul_ediv_add_emod n COIN
  rw [parseMoney_formatMoney h hmax]
  constructor
  · rintro ⟨hparse, -⟩
    split at hparse
    · rw [Option.some.injEq] at hparse
      have : COIN * (n / COIN) = n / COIN * COIN := Int.mul_comm _ _
      omega
    · simp at hparse
  · intro hzero
    have hn : n / COIN * COIN = n := by rw [Int.mul_comm]; omega
    exact ⟨by simp [hzero, hn], (formatMoney_numeral_iff h).mpr hzero⟩

theorem money_text_whole : parseMoney (formatMoney 12345000000 false) = some 12345000000 ∧
    Numeral (formatMoney 12345000000 false) (((12345000000 : Int) : ℚ) / COIN) :=
  (money_text_iff (by decide) (by decide)).mpr (by decide)

/-- One and a half coins are printed as "1.005", and read as 1.005 coins; 0.000001 coins are not read
at all. -/
theorem money_text_loses_decimals :
    formatMoney 1500000 false = ['1', '.', '0', '0', '5'] ∧
      parseMoney (formatMoney 1500000 false) = some 1005000 ∧
      parseMoney (formatMoney 1 false) = none ∧
      ¬(parseMoney (formatMoney 1500000 false) = some 1500000 ∧
        Numeral (formatMoney 1500000 false) (((1500000 : Int) : ℚ) / COIN)) := by
  have hparse : parseMoney (formatMoney 1500000 false) = some 1005000 := by decide
  refine ⟨by decide, hparse, by decide, ?_⟩
  rintro ⟨hsame, -⟩
  rw [hparse] at hsame
  exact absurd hsame (by decide)

end Triangles
