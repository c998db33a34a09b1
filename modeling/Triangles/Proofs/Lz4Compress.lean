import Mathlib.Tactic.Ring
import Triangles.Model.SmsgEncrypt
import Triangles.Proofs.Lz4Block

/-! Compression writes a block that tells its source, of a size that is bounded. -/

namespace Triangles.LZ4

open Lz77

/-! Words of the source. -/

theorem leValue_inj {as bs : List UInt8} (hlen : as.length = bs.length)
    (h : leValue as = leValue bs) : as = bs := by
  induction as generalizing bs with
  | nil => exact (List.eq_nil_of_length_eq_zero hlen.symm).symm
  | cons a as ih =>
    cases bs with
    | nil => cases hlen
    | cons b bs =>
      rw [leValue, leValue] at h
      have ha := UInt8.toNat_lt a
      have hb := UInt8.toNat_lt b
      have hhead : a = b := UInt8.toNat_inj.mp (by omega)
      rw [hhead, ih (by simpa using hlen) (by omega)]

theorem trailingZeros_lt {bits j v : Nat} (h : v % 2 ^ j ≠ 0) : trailingZeros bits v < j := by
  induction bits generalizing j v with
  | zero =>
    cases j with
    | zero => exact absurd (Nat.mod_one v) h
    | succ j => exact Nat.succ_pos j
  | succ bits ih =>
    cases j with
    | zero => exact absurd (Nat.mod_one v) h
    | succ j =>
      unfold trailingZeros
      split
      · exact Nat.succ_pos j
      · have hhalf : v / 2 % 2 ^ j ≠ 0 := by
          rw [Nat.pow_succ'] at h
          rw [Nat.mod_mul] at h
          omega
        exact Nat.succ_lt_succ (ih hhalf)

theorem trailingZeros_shift (j bits v : Nat) :
    trailingZeros (j + bits) (2 ^ j * v) = j + trailingZeros bits v := by
  induction j with
  | zero => simp
  | succ j ih =>
    have heven : ¬ 2 ^ (j + 1) * v % 2 = 1 := by
      rw [Nat.pow_succ', Nat.mul_assoc, Nat.mul_mod_right]
      decide
    have hhalf : 2 ^ (j + 1) * v / 2 = 2 ^ j * v := by
      rw [Nat.pow_succ', Nat.mul_assoc, Nat.mul_div_cancel_left _ (by decide)]
    rw [Nat.add_right_comm, trailingZeros, if_neg heven, hhalf, ih]
    omega

theorem xor_split (a b x y : Nat) (ha : a < 256) (hb : b < 256) :
    (a + 256 * x) ^^^ (b + 256 * y) = (a ^^^ b) + 256 * (x ^^^ y) := by
  have hlow : ((a + 256 * x) ^^^ (b + 256 * y)) % 2 ^ 8 = a ^^^ b := by
    rw [Nat.xor_mod_two_pow]
    congr 1 <;> omega
  have hhigh : ((a + 256 * x) ^^^ (b + 256 * y)) / 2 ^ 8 = x ^^^ y := by
    rw [Nat.xor_div_two_pow]
    congr 1 <;> omega
  have hsplit := Nat.mod_add_div ((a + 256 * x) ^^^ (b + 256 * y)) (2 ^ 8)
  rw [hlow, hhigh] at hsplit
  exact hsplit.symm

/-- The first byte in which two words differ. -/
theorem nbCommonBytes_spec {as bs : List UInt8} (hlen : as.length = bs.length)
    (hne : leValue as ^^^ leValue bs ≠ 0) :
    trailingZeros (8 * as.length) (leValue as ^^^ leValue bs) / 8 < as.length ∧
      as.take (trailingZeros (8 * as.length) (leValue as ^^^ leValue bs) / 8) =
        bs.take (trailingZeros (8 * as.length) (leValue as ^^^ leValue bs) / 8) ∧
      as.getD (trailingZeros (8 * as.length) (leValue as ^^^ leValue bs) / 8) 0 ≠
        bs.getD (trailingZeros (8 * as.length) (leValue as ^^^ leValue bs) / 8) 0 := by
  induction as generalizing bs with
  | nil =>
    obtain rfl := List.eq_nil_of_length_eq_zero hlen.symm
    exact absurd (Nat.xor_self _) hne
  | cons a as ih =>
    cases bs with
    | nil => cases hlen
    | cons b bs =>
      have hxor := xor_split a.toNat b.toNat (leValue as) (leValue bs) (UInt8.toNat_lt a)
        (UInt8.toNat_lt b)
      rw [leValue, leValue, hxor] at hne ⊢
      have hbits : 8 * (a :: as).length = 8 + 8 * as.length := by
        rw [List.length_cons]
        omega
      by_cases hsame : a = b
      · subst hsame
        rw [Nat.xor_self, Nat.zero_add] at hne ⊢
        have hrest : leValue as ^^^ leValue bs ≠ 0 := fun hc => hne (by rw [hc])
        obtain ⟨hlt, htake, hdiff⟩ := ih (by simpa using hlen) hrest
        rw [hbits, show (256 : Nat) = 2 ^ 8 from rfl, trailingZeros_shift,
          Nat.add_div_left _ (by decide), List.length_cons, List.take_succ_cons,
          List.take_succ_cons, htake, List.getD_cons_succ, List.getD_cons_succ]
        exact ⟨Nat.succ_lt_succ hlt, rfl, hdiff⟩
      · have hdiff : a.toNat ^^^ b.toNat ≠ 0 := by
          intro hc
          have hcancel := congrArg (· ^^^ b.toNat) hc
          simp only [Nat.xor_assoc, Nat.xor_self, Nat.xor_zero, Nat.zero_xor] at hcancel
          exact hsame (UInt8.toNat_inj.mp hcancel)
        have hlow : a.toNat ^^^ b.toNat < 2 ^ 8 := Nat.xor_lt_two_pow (UInt8.toNat_lt a)
          (UInt8.toNat_lt b)
        have hmod : ((a.toNat ^^^ b.toNat) + 256 * (leValue as ^^^ leValue bs)) % 2 ^ 8 ≠ 0 := by
          omega
        have hzero : trailingZeros (8 * (a :: as).length)
            ((a.toNat ^^^ b.toNat) + 256 * (leValue as ^^^ leValue bs)) / 8 = 0 :=
          Nat.div_eq_of_lt (trailingZeros_lt hmod)
        rw [hzero]
        exact ⟨Nat.succ_pos _, rfl, hsame⟩

section Source

variable {src : List UInt8}

/-- The source repeats itself from `p` to `q` at a distance. -/
def Same (src : List UInt8) (offset p q : Nat) : Prop :=
  Repeats (fun i => src.getD i 0) offset p q

theorem getD_of_word {width p j : Nat} (hj : j < width) :
    ((src.drop p).take width).getD j 0 = src.getD (p + j) 0 := by
  simp only [List.getD_eq_getElem?_getD, List.getElem?_take_of_lt hj, List.getElem?_drop]

theorem word_length {width p : Nat} (h : p + width ≤ src.length) :
    ((src.drop p).take width).length = width := by
  rw [List.length_take, List.length_drop]
  omega

theorem same_of_wordAt {width ip ref : Nat} (href : ref < ip) (hip : ip + width ≤ src.length)
    (h : wordAt src width ref = wordAt src width ip) : Same src (ip - ref) ip (ip + width) := by
  have hwords := leValue_inj
    (by rw [word_length (by omega), word_length hip]) h
  intro i hi hlt
  have hget := congrArg (fun l : List UInt8 => l.getD (i - ip) 0) hwords
  simp only [getD_of_word (show i - ip < width by omega)] at hget
  rw [show ref + (i - ip) = i - (ip - ref) by omega, show ip + (i - ip) = i by omega] at hget
  exact hget.symm

theorem Same.append {offset p q r : Nat} (h₁ : Same src offset p q) (h₂ : Same src offset q r) :
    Same src offset p r := by
  intro i hi hlt
  by_cases hq : i < q
  · exact h₁ i hi hq
  · exact h₂ i (by omega) hlt

theorem same_refl (offset p : Nat) : Same src offset p p :=
  fun i hi hlt => absurd hi (by omega)

/-! The search. -/

/-- Every position in the table is in front of a place. -/
def Behind (table : Nat → Nat) (ip : Nat) : Prop := ∀ h, table h < ip

theorem Behind.put {table : Nat → Nat} {ip p : Nat} (h : Behind table ip) (hp : p < ip) (k : Nat)
    (tableType : TableType) : Behind (putPositionOnHash p k table tableType) ip := by
  intro h'
  have hput : putPositionOnHash p k table tableType h' ≤ p ∨
      putPositionOnHash p k table tableType h' = table h' := by
    by_cases hk : h' = k
    · subst hk
      left
      cases tableType
      · simpa [putPositionOnHash] using Nat.mod_le p _
      · simpa [putPositionOnHash] using Nat.mod_le p _
    · right
      cases tableType <;> exact Function.update_of_ne hk _ _
  obtain hle | heq := hput
  · omega
  · rw [heq]
    exact h h'

theorem Behind.mono {table : Nat → Nat} {ip ip' : Nat} (h : Behind table ip) (hle : ip ≤ ip') :
    Behind table ip' := fun k => Nat.lt_of_lt_of_le (h k) hle

/-- A match is four bytes that stand some way before them as well, not too near to the end. -/
theorem findMatch_spec {tableType : TableType} {rounds attempts forwardIp forwardH : Nat}
    {table : Nat → Nat} {ip ref : Nat} {table' : Nat → Nat} (hattempts : 64 ≤ attempts)
    (htable : Behind table forwardIp)
    (h : findMatch src tableType rounds attempts forwardIp forwardH table = some (ip, ref, table')) :
    forwardIp ≤ ip ∧ ip + 13 ≤ src.length ∧ ref < ip ∧ ip ≤ ref + 65535 ∧
      wordAt src 4 ref = wordAt src 4 ip ∧ Behind table' (ip + 1) := by
  induction rounds generalizing attempts forwardIp forwardH table with
  | zero => cases h
  | succ rounds ih =>
    have hstep : 1 ≤ attempts >>> SKIPSTRENGTH := by
      rw [SKIPSTRENGTH, Nat.shiftRight_eq_div_pow, Nat.one_le_div_iff (by decide)]
      exact hattempts
    unfold findMatch at h
    dsimp only at h
    split at h
    · cases h
    · rename_i hroom
      rw [MFLIMIT, COPYLENGTH, MINMATCH] at hroom
      have hput := (htable.mono (Nat.le_succ forwardIp)).put (Nat.lt_succ_self forwardIp) forwardH
        tableType
      split at h
      · obtain ⟨hle, hrest⟩ := ih (by omega) (hput.mono (by omega)) h
        exact ⟨by omega, hrest⟩
      · rename_i hmatch
        obtain ⟨rfl, rfl, rfl⟩ : forwardIp = ip ∧ table forwardH = ref ∧
            putPositionOnHash forwardIp forwardH table tableType = table' := by simpa using h
        rw [not_or, not_not, MAX_DISTANCE] at hmatch
        exact ⟨Nat.le_refl _, by omega, htable forwardH, by omega, hmatch.2, hput⟩

theorem catchUp_spec {anchor ip ref : Nat} (hanchor : anchor ≤ ip) (href : ref < ip) :
    anchor ≤ (catchUp src anchor ip ref).1 ∧ (catchUp src anchor ip ref).1 ≤ ip ∧
      (catchUp src anchor ip ref).1 = (catchUp src anchor ip ref).2 + (ip - ref) ∧
      Same src (ip - ref) (catchUp src anchor ip ref).1 ip := by
  induction ip generalizing ref with
  | zero => omega
  | succ ip ih =>
    unfold catchUp
    split
    · rename_i hback
      obtain ⟨hlow, hpos, hsame⟩ := hback
      obtain ⟨hle, hle', heq, hrest⟩ := @ih (ref - 1) (by omega) (by omega)
      rw [show ip - (ref - 1) = ip + 1 - ref by omega] at heq hrest
      refine ⟨hle, by omega, heq, hrest.append fun i hi hlt => ?_⟩
      obtain rfl : i = ip := by omega
      rw [show i - (i + 1 - ref) = ref - 1 by omega]
      exact hsame
    · exact ⟨hanchor, Nat.le_refl _, by dsimp only; omega, same_refl _ _⟩

/-! Counting. -/

/-- Eight bytes at a time: as far as they are the same, or up to the last twelve. -/
theorem countSteps_spec {rounds ip ref : Nat} (href : ref < ip) (hip : ip + 5 ≤ src.length)
    (hrounds : src.length ≤ ip + rounds) :
    ip ≤ (countSteps src rounds ip ref).1 ∧ (countSteps src rounds ip ref).1 + 5 ≤ src.length ∧
      Same src (ip - ref) ip (countSteps src rounds ip ref).1 ∧
      ((countSteps src rounds ip ref).2.2 = false →
        (countSteps src rounds ip ref).1 = (countSteps src rounds ip ref).2.1 + (ip - ref) ∧
          src.length ≤ (countSteps src rounds ip ref).1 + 12) ∧
      ((countSteps src rounds ip ref).2.2 = true →
        src.getD (countSteps src rounds ip ref).1 0 ≠
          src.getD ((countSteps src rounds ip ref).1 - (ip - ref)) 0) := by
  induction rounds generalizing ip ref with
  | zero => omega
  | succ rounds ih =>
    unfold countSteps
    by_cases hroom : ip < src.length - LASTLITERALS - (STEPSIZE - 1)
    · have hroom' : ip + 12 < src.length := by
        rw [LASTLITERALS, STEPSIZE] at hroom
        omega
      rw [if_pos hroom]
      by_cases hdiff : wordAt src 8 ref ^^^ wordAt src 8 ip = 0
      · have hwords : wordAt src 8 ref = wordAt src 8 ip := by
          have hcancel := congrArg (· ^^^ wordAt src 8 ip) hdiff
          simpa only [Nat.xor_assoc, Nat.xor_self, Nat.xor_zero, Nat.zero_xor] using hcancel
        simp only [hdiff, if_true, STEPSIZE]
        obtain ⟨hle, hle', hsame, hend, hdone⟩ := @ih (ip + 8) (ref + 8) (by omega) (by omega) (by omega)
        rw [show ip + 8 - (ref + 8) = ip - ref by omega] at hsame hend hdone
        exact ⟨by omega, hle', (same_of_wordAt href (by omega) hwords).append hsame, hend, hdone⟩
      · -- the first byte that is different is in this word
        simp only [hdiff, if_false]
        have hlen := @word_length src 8 ref (by omega)
        obtain ⟨hlt, htake, hbyte⟩ := @nbCommonBytes_spec ((src.drop ref).take 8) ((src.drop ip).take 8)
          (by rw [hlen, word_length (by omega)]) hdiff
        rw [hlen] at hlt htake hbyte
        have hcommon : nbCommonBytes (wordAt src 8 ref ^^^ wordAt src 8 ip) =
            trailingZeros (8 * 8) (leValue ((src.drop ref).take 8) ^^^
              leValue ((src.drop ip).take 8)) / 8 := Nat.shiftRight_eq_div_pow _ 3
        rw [← hcommon] at hlt htake hbyte
        generalize nbCommonBytes (wordAt src 8 ref ^^^ wordAt src 8 ip) = c at hlt htake hbyte
        refine ⟨by omega, by omega, ?_, ⟨fun hc => absurd hc.symm Bool.false_ne_true, fun _ => ?_⟩⟩
        rotate_left
        · rw [getD_of_word hlt, getD_of_word hlt] at hbyte
          rw [show ip + c - (ip - ref) = ref + c by omega]
          exact hbyte.symm
        intro i hi hlt'
        have hget := congrArg (fun l : List UInt8 => l.getD (i - ip) 0) htake
        have hshort : i - ip < c := by omega
        simp only [List.getD_eq_getElem?_getD, List.getElem?_take_of_lt hshort,
          List.getElem?_take_of_lt (show i - ip < 8 by omega), List.getElem?_drop] at hget
        rw [show ref + (i - ip) = i - (ip - ref) by omega, show ip + (i - ip) = i by omega] at hget
        simp only [List.getD_eq_getElem?_getD]
        exact hget.symm
    · rw [if_neg hroom]
      rw [LASTLITERALS, STEPSIZE] at hroom
      exact ⟨Nat.le_refl _, hip, same_refl _ _, fun _ => by dsimp only; omega, fun hc => by cases hc⟩

theorem countWord_spec {offset start p q : Nat} (limit width : Nat) (hp : p = q + offset)
    (hoffset : 0 < offset) (hstart : start ≤ p) (hend : p + 5 ≤ src.length)
    (hlimit : limit + (width - 1) + 5 ≤ src.length) (hsame : Same src offset start p) :
    (countWord src width limit p q).1 = (countWord src width limit p q).2 + offset ∧
      start ≤ (countWord src width limit p q).1 ∧
      (countWord src width limit p q).1 + 5 ≤ src.length ∧
      Same src offset start (countWord src width limit p q).1 := by
  unfold countWord
  split
  · rename_i hmatch
    obtain ⟨hroom, hword⟩ := hmatch
    have hmore := same_of_wordAt (show q < p by omega) (by omega) hword
    rw [show p - q = offset by omega] at hmore
    exact ⟨by dsimp only; omega, by dsimp only; omega, by dsimp only; omega, hsame.append hmore⟩
  · exact ⟨hp, hstart, hend, hsame⟩

variable (src) in
theorem countWord_cases (width limit p q : Nat) :
    countWord src width limit p q = (p + width, q + width) ∨
      countWord src width limit p q = (p, q) := by
  unfold countWord
  split
  · exact .inl rfl
  · exact .inr rfl

variable (src) in
theorem countWord_taken {offset p q : Nat} (limit width : Nat) (hp : p = q + offset)
    (hroom : p < limit) (hlimit : p + width ≤ src.length) (hsame : Same src offset p (p + width)) :
    countWord src width limit p q = (p + width, q + width) := by
  have hwords : (src.drop q).take width = (src.drop p).take width := by
    apply List.ext_getElem?
    intro j
    by_cases hj : j < width
    · have hget := hsame (p + j) (by omega) (by omega)
      have hp' : p + j < src.length := by omega
      have hq' : q + j < src.length := by omega
      simp only [show p + j - offset = q + j by omega, List.getD_eq_getElem?_getD,
        List.getElem?_eq_getElem hp', List.getElem?_eq_getElem hq', Option.getD_some] at hget
      simp only [List.getElem?_take_of_lt hj, List.getElem?_drop, List.getElem?_eq_getElem hp',
        List.getElem?_eq_getElem hq', hget]
    · rw [List.getElem?_take_eq_none (by omega), List.getElem?_take_eq_none (by omega)]
  exact if_pos ⟨hroom, congrArg leValue hwords⟩

/-- A match is counted up to the first byte that is different, or to the last literals. -/
theorem countMatch_spec {ip ref : Nat} (href : ref < ip) (hip : ip + 8 ≤ src.length) :
    ip ≤ countMatch src ip ref ∧ countMatch src ip ref + 5 ≤ src.length ∧
      Same src (ip - ref) ip (countMatch src ip ref) ∧
      (countMatch src ip ref + 5 < src.length → src.getD (countMatch src ip ref) 0 ≠
        src.getD (countMatch src ip ref - (ip - ref)) 0) := by
  obtain ⟨hle, hend, hsame, hback, hdone⟩ :=
    @countSteps_spec src src.length _ _ href (by omega) (Nat.le_add_left _ _)
  unfold countMatch
  generalize countSteps src src.length ip ref = counted at hle hend hsame hback hdone
  obtain ⟨p, q, done⟩ := counted
  dsimp only at hle hend hsame hback hdone ⊢
  cases done with
  | true => exact ⟨hle, hend, hsame, fun _ => hdone rfl⟩
  | false =>
    have hfive : LASTLITERALS = 5 := rfl
    rw [if_neg Bool.false_ne_true]
    obtain ⟨hp, hlong⟩ := hback rfl
    -- four bytes, two and one of the last seven
    obtain ⟨hp₁, hle₁, hend₁, hsame₁⟩ := countWord_spec (src.length - LASTLITERALS - 3) 4 hp
      (by omega) hle hend (by omega) hsame
    have hcases₁ := countWord_cases src 4 (src.length - LASTLITERALS - 3) p q
    have htaken₁ := countWord_taken src (src.length - LASTLITERALS - 3) 4 hp
    generalize countWord src 4 (src.length - LASTLITERALS - 3) p q = counted
      at hp₁ hle₁ hend₁ hsame₁ hcases₁ htaken₁ ⊢
    obtain ⟨p₁, q₁⟩ := counted
    dsimp only at hp₁ hle₁ hend₁ hsame₁ ⊢
    obtain ⟨hp₂, hle₂, hend₂, hsame₂⟩ := countWord_spec (src.length - LASTLITERALS - 1) 2 hp₁
      (by omega) hle₁ hend₁ (by omega) hsame₁
    have hcases₂ := countWord_cases src 2 (src.length - LASTLITERALS - 1) p₁ q₁
    have htaken₂ := countWord_taken src (src.length - LASTLITERALS - 1) 2 hp₁
    generalize countWord src 2 (src.length - LASTLITERALS - 1) p₁ q₁ = counted
      at hp₂ hle₂ hend₂ hsame₂ hcases₂ htaken₂ ⊢
    obtain ⟨p₂, q₂⟩ := counted
    dsimp only at hp₂ hle₂ hend₂ hsame₂ ⊢
    by_cases hlast : p₂ < src.length - LASTLITERALS ∧ src.getD q₂ 0 = src.getD p₂ 0
    · rw [if_pos hlast]
      have hsame₃ : Same src (ip - ref) ip (p₂ + 1) := hsame₂.append fun i hi hlt => by
        obtain rfl : i = p₂ := by omega
        dsimp only
        rw [show i - (ip - ref) = q₂ by omega]
        exact hlast.2.symm
      refine ⟨by omega, by omega, hsame₃, fun hroom hnext => ?_⟩
      have hsame₄ : Same src (ip - ref) ip (p₂ + 2) := hsame₃.append fun i hi hlt => by
        obtain rfl : i = p₂ + 1 := by omega
        exact hnext
      -- one byte more would have been taken with the words before
      obtain heq₂ | heq₂ := hcases₂
      · obtain ⟨rfl, rfl⟩ := Prod.mk.inj heq₂
        obtain heq₁ | heq₁ := hcases₁
        · obtain ⟨rfl, rfl⟩ := Prod.mk.inj heq₁
          omega
        · obtain ⟨rfl, rfl⟩ := Prod.mk.inj heq₁
          have := htaken₁ (by omega) (by omega) fun i hi hlt => hsame₄ i (by omega) (by omega)
          simp at this
      · obtain ⟨rfl, rfl⟩ := Prod.mk.inj heq₂
        have := htaken₂ (by omega) (by omega) fun i hi hlt => hsame₄ i (by omega) (by omega)
        simp at this
    · rw [if_neg hlast]
      refine ⟨hle₂, hend₂, hsame₂, fun hroom hnext => hlast ⟨by omega, ?_⟩⟩
      rw [hnext, show p₂ - (ip - ref) = q₂ by omega]

theorem countMatch_max {ip ref r : Nat} (href : ref < ip) (hip : ip + 8 ≤ src.length)
    (hsame : Same src (ip - ref) ip r) (hr : r + 5 ≤ src.length) : r ≤ countMatch src ip ref := by
  obtain ⟨hle, -, -, hstop⟩ := countMatch_spec href hip
  by_contra hlt
  exact hstop (by omega) (hsame _ hle (by omega))

/-! What is written. -/

theorem runBytes_eq {rounds len : Nat} (h : len / 255 ≤ rounds) :
    runBytes rounds len = List.replicate (len / 255) 255 ++ [UInt8.ofNat (len % 255)] := by
  induction rounds generalizing len with
  | zero =>
    have hsmall : len < 255 := by omega
    simp [runBytes, Nat.div_eq_of_lt hsmall, Nat.mod_eq_of_lt hsmall]
  | succ rounds ih =>
    unfold runBytes
    by_cases hlong : len ≥ 255
    · have hdiv : len / 255 = (len - 255) / 255 + 1 := by omega
      rw [if_pos hlong, ih (by omega), hdiv, List.replicate_succ, List.cons_append,
        show (len - 255) % 255 = len % 255 by omega]
    · have hsmall : len < 255 := by omega
      simp [hlong, Nat.div_eq_of_lt hsmall, Nat.mod_eq_of_lt hsmall]

theorem matchBytes_eq {rounds length : Nat} (h : length / 255 ≤ rounds) :
    matchBytes rounds length =
      List.replicate (length / 255) 255 ++ [UInt8.ofNat (length % 255)] := by
  induction rounds generalizing length with
  | zero =>
    have hsmall : length < 255 := by omega
    simp [matchBytes, Nat.div_eq_of_lt hsmall, Nat.mod_eq_of_lt hsmall]
  | succ rounds ih =>
    unfold matchBytes
    by_cases htwo : length > 509
    · have hdiv : length / 255 = (length - 510) / 255 + 1 + 1 := by omega
      rw [if_pos htwo, ih (by omega), hdiv, List.replicate_succ, List.replicate_succ,
        List.cons_append, List.cons_append, show (length - 510) % 255 = length % 255 by omega]
    · rw [if_neg htwo]
      by_cases hone : length ≥ 255
      · have hdiv : length / 255 = 1 := by omega
        rw [if_pos hone, hdiv, show length % 255 = length - 255 by omega]
        rfl
      · have hsmall : length < 255 := by omega
        simp [hone, Nat.div_eq_of_lt hsmall, Nat.mod_eq_of_lt hsmall]

theorem extBytes_run {n : Nat} (h : 15 ≤ n) : runBytes n (n - 15) = extBytes n := by
  rw [runBytes_eq (by omega), extBytes, if_neg (by omega)]

theorem extBytes_match {n : Nat} (h : 15 ≤ n) : matchBytes n (n - 15) = extBytes n := by
  rw [matchBytes_eq (by omega), extBytes, if_neg (by omega)]

/-- The literals of a sequence, when its token knows of no match yet. -/
theorem literals_eq (anchor ip : Nat) (op : List UInt8) :
    literals src anchor ip op = op ++ (tokenOf (ip - anchor) 0 :: (extBytes (ip - anchor) ++
      (src.drop anchor).take (ip - anchor))) := by
  unfold literals
  by_cases hlong : ip - anchor ≥ 15
  · have htoken : UInt8.ofNat (15 <<< 4) = tokenOf (ip - anchor) 0 := by
      rw [tokenOf, Nat.min_eq_right hlong]
      rfl
    rw [← htoken, ← extBytes_run hlong]
    simp [RUN_MASK, ML_BITS, hlong]
  · have htoken : UInt8.ofNat ((ip - anchor) <<< 4) = tokenOf (ip - anchor) 0 := by
      rw [tokenOf, Nat.min_eq_left (by omega), Nat.shiftLeft_eq]
      rfl
    have hext : extBytes (ip - anchor) = [] := if_pos (by omega)
    simp [RUN_MASK, ML_BITS, hlong, htoken, hext]

theorem modify_here (op l : List UInt8) (a : UInt8) (f : UInt8 → UInt8) :
    (op ++ a :: l).modify op.length f = op ++ f a :: l := by
  induction op with
  | nil => rfl
  | cons b op ih => simp [ih]

theorem tokenOf_add (ll ml : Nat) :
    tokenOf ll 0 + UInt8.ofNat (min ml 15) = tokenOf ll ml := by
  rw [tokenOf, tokenOf, ← UInt8.ofNat_add]
  congr 1

/-- A match completes the sequence of which the literals were written. -/
theorem matchCode_eq (op lits : List UInt8) (offset more : Nat) :
    matchCode offset more op.length
        (op ++ (tokenOf lits.length 0 :: (extBytes lits.length ++ lits))) =
      op ++ code ⟨lits, offset, 4 + more⟩ := by
  have hmore : 4 + more - 4 = more := by omega
  unfold matchCode code
  rw [List.append_assoc, List.cons_append]
  dsimp only
  rw [modify_here, modify_here, hmore]
  by_cases hlong : more ≥ 15
  · have htoken : tokenOf lits.length 0 + 15 = tokenOf lits.length more := by
      rw [← tokenOf_add lits.length more, Nat.min_eq_right hlong]
      rfl
    simp [ML_MASK, hlong, htoken, extBytes_match hlong]
  · have htoken : tokenOf lits.length 0 + UInt8.ofNat more = tokenOf lits.length more := by
      rw [← tokenOf_add lits.length more, Nat.min_eq_left (by omega)]
    have hext : extBytes more = [] := if_pos (by omega)
    simp [ML_MASK, hlong, htoken, hext]

theorem lastLiterals_eq (anchor : Nat) (op : List UInt8) :
    lastLiterals src anchor op = op ++ lastCode (src.drop anchor) := by
  rw [lastLiterals, literals_eq, lastCode, List.length_drop,
    List.take_of_length_le (by rw [List.length_drop])]

/-! The main loop. -/

/-- What the main loop has written from an anchor on: steps that tell the source up to another. -/
def Writes (src : List UInt8) (anchor : Nat) (op : List UInt8) (result : Option (Nat × List UInt8)) :
    Prop :=
  ∃ anchor' steps, result = some (anchor', op ++ steps.flatMap code) ∧ anchor' + 5 ≤ src.length ∧
    Tells src.length (src.drop anchor') anchor steps ∧
    steps.foldl Step.play (src.take anchor) = src.take anchor'

theorem literals_self (ip : Nat) (op : List UInt8) : literals src ip ip op = op ++ [0] := by
  rw [literals_eq, Nat.sub_self]
  rfl

/-- The literals from an anchor, and a match behind them up to `m`. -/
def sequence (src : List UInt8) (anchor ip offset m : Nat) : Step UInt8 :=
  ⟨(src.drop anchor).take (ip - anchor), offset, m - ip⟩

theorem length_sequence {anchor ip offset m : Nat} (hip : ip ≤ src.length) :
    (sequence src anchor ip offset m).literals.length = ip - anchor := by
  rw [sequence, List.length_take, List.length_drop]
  omega

/-- The match that begins at `ip` tells the source up to its end. -/
theorem play_sequence {anchor ip offset m : Nat} (hanchor : anchor ≤ ip) (hoffset : 1 ≤ offset)
    (hback : offset ≤ ip) (hm : ip ≤ m) (hend : m ≤ src.length) (hsame : Same src offset ip m) :
    Step.play (src.take anchor) (sequence src anchor ip offset m) = src.take m := by
  have hlen := @length_sequence src anchor ip offset m (by omega)
  have hlength : (sequence src anchor ip offset m).length = m - ip := rfl
  have hplay := @Step.play_take _ src (sequence src anchor ip offset m) anchor
    (by rw [hlen]; rfl) hoffset (by rw [hlen]; dsimp only [sequence]; omega)
    (by rw [hlen, hlength]; omega) (by
      intro i hi hlt
      rw [hlen] at hi hlt
      rw [hlength] at hlt
      change src[i]? = src[i - offset]?
      have hi' : i < src.length := by omega
      have hb' : i - offset < src.length := by omega
      have hget := hsame i (by omega) (by omega)
      simp only [List.getD_eq_getElem?_getD, List.getElem?_eq_getElem hi',
        List.getElem?_eq_getElem hb', Option.getD_some] at hget
      rw [List.getElem?_eq_getElem hi', List.getElem?_eq_getElem hb', hget])
  rw [hplay, hlen, hlength]
  congr 1
  omega

theorem matchCode_sequence {anchor ip offset m : Nat} (hip : ip ≤ src.length) (hm : ip + MINMATCH ≤ m)
    (op : List UInt8) :
    matchCode offset (m - (ip + MINMATCH)) op.length (literals src anchor ip op) =
      op ++ code (sequence src anchor ip offset m) := by
  have hfour : MINMATCH = 4 := rfl
  have hcomplete := matchCode_eq op (sequence src anchor ip offset m).literals offset
    (m - (ip + MINMATCH))
  have hlength : 4 + (m - (ip + MINMATCH)) = m - ip := by omega
  rw [length_sequence hip, hlength] at hcomplete
  rw [literals_eq]
  exact hcomplete

/-- A sequence in front of what the loop goes on to write. -/
theorem Writes.cons {anchor ip offset m : Nat} {op : List UInt8} {result : Option (Nat × List UInt8)}
    (h : Writes src m (op ++ code (sequence src anchor ip offset m)) result) (hanchor : anchor ≤ ip)
    (hoffset : 1 ≤ offset) (hback : offset ≤ ip) (hfar : offset ≤ 65535) (hroom : ip + 12 ≤ src.length)
    (hm : ip + 4 ≤ m) (hend : m ≤ src.length) (hsame : Same src offset ip m) :
    Writes src anchor op result := by
  obtain ⟨anchor', steps, rfl, hlast, htells, htold⟩ := h
  have hlen := @length_sequence src anchor ip offset m (by omega)
  have hplace : anchor + (ip - anchor) + (m - ip) = m := by omega
  refine ⟨anchor', sequence src anchor ip offset m :: steps, ?_, hlast, ?_, ?_⟩
  · rw [List.flatMap_cons, List.append_assoc]
  · rw [Tells, hlen, List.length_drop]
    refine ⟨by omega, by omega, hoffset, by dsimp only [sequence]; omega,
      by dsimp only [sequence]; omega, by dsimp only [sequence]; omega, ?_⟩
    dsimp only [sequence]
    rw [hplace]
    exact htells
  · rw [List.foldl_cons, play_sequence hanchor hoffset hback (by omega) hend hsame, htold]

/-- From a search, or from a match of which the literals are written. The positions in the table
lie in front of what is known to match, so that they do when all of it is counted. -/
theorem mainLoop_spec (tableType : TableType) (rounds : Nat) :
    (∀ anchor forwardH table op, Behind table (anchor + 1) → anchor + 12 ≤ src.length →
      2 * (src.length - anchor) ≤ rounds →
      Writes src anchor op
        (mainLoop src tableType rounds (.search (anchor + 1) anchor forwardH) table op)) ∧
    ∀ anchor ip ref e table op, anchor ≤ ip → ref < ip → ip ≤ ref + 65535 → ip + 12 ≤ src.length →
      ip + 4 ≤ e → e + 5 ≤ src.length → Same src (ip - ref) ip e → Behind table e →
      2 * (src.length - ip) ≤ rounds + 1 →
      Writes src anchor op (mainLoop src tableType rounds (.nextMatch ip ref op.length) table
        (literals src anchor ip op)) := by
  induction rounds with
  | zero => exact ⟨fun _ _ _ _ _ _ _ => by omega, fun _ _ _ _ _ _ _ _ _ _ _ _ _ _ _ => by omega⟩
  | succ rounds ih =>
    obtain ⟨ihSearch, ihMatch⟩ := ih
    constructor
    · intro anchor forwardH table op htable hroom hrounds
      cases hfound : findMatch src tableType src.length (1 <<< SKIPSTRENGTH + 3) (anchor + 1)
          forwardH table with
      | none =>
        refine ⟨anchor, [], by simp [mainLoop, hfound], by omega, ?_, rfl⟩
        change anchor + (src.drop anchor).length = src.length
        rw [List.length_drop]
        omega
      | some found =>
        obtain ⟨ip, ref, table'⟩ := found
        obtain ⟨hle, hend, href, hfar, hword, htable'⟩ :=
          findMatch_spec (by decide) htable hfound
        obtain ⟨hanchor, hback, hdist, hsame⟩ := @catchUp_spec src anchor ip ref (by omega) href
        have hfirst := hsame.append (same_of_wordAt href (by omega) hword)
        simp only [mainLoop, hfound]
        generalize catchUp src anchor ip ref = caught at hanchor hback hdist hsame hfirst ⊢
        obtain ⟨ip', ref'⟩ := caught
        dsimp only at hanchor hback hdist hsame hfirst ⊢
        rw [show ip - ref = ip' - ref' by omega] at hfirst
        exact ihMatch anchor ip' ref' (ip + 4) table' op hanchor (by omega) (by omega) (by omega)
          (by omega) (by omega) hfirst (htable'.mono (by omega)) (by omega)
    · intro anchor ip ref e table op hanchor href hfar hroom he hend hsame htable hrounds
      have hdist : ip + MINMATCH - (ref + MINMATCH) = ip - ref := by omega
      have hfour : MINMATCH = 4 := rfl
      obtain ⟨hle, hend', hsame', -⟩ := @countMatch_spec src (ip + MINMATCH) (ref + MINMATCH) (by omega)
        (by omega)
      have hmax := @countMatch_max src (ip + MINMATCH) (ref + MINMATCH) e (by omega) (by omega)
        (by rw [hdist]; exact fun i hi => hsame i (by omega)) hend
      rw [hdist] at hsame'
      simp only [mainLoop]
      generalize countMatch src (ip + MINMATCH) (ref + MINMATCH) = m at hle hend' hsame' hmax ⊢
      have hall : Same src (ip - ref) ip m := fun i hi hlt => by
        by_cases hmore : i < ip + MINMATCH
        · exact hsame i hi (by omega)
        · exact hsame' i (by omega) hlt
      rw [matchCode_sequence (by omega) hle]
      -- the sequence is complete, and more of them follow
      refine Writes.cons ?_ hanchor (by omega) (by omega) (by omega) hroom hle (by omega) hall
      by_cases hnear : m > src.length - MFLIMIT
      · rw [if_pos hnear]
        refine ⟨m, [], by simp, hend', ?_, rfl⟩
        change m + (src.drop m).length = src.length
        rw [List.length_drop]
        omega
      · rw [if_neg hnear]
        have htwelve : MFLIMIT = 12 := rfl
        have hdistance : MAX_DISTANCE = 65535 := rfl
        have hput : Behind (putPosition src (m - 2) table tableType) m :=
          (htable.mono hmax).put (by omega) _ _
        have hput' : Behind (putPosition src m (putPosition src (m - 2) table tableType) tableType)
            (m + 1) := (hput.mono (Nat.le_succ m)).put (Nat.lt_succ_self m) _ _
        have hnextRef : getPosition src m (putPosition src (m - 2) table tableType) tableType < m :=
          hput _
        split
        · rename_i hmatch
          rw [← literals_self m]
          exact ihMatch m m _ (m + 4) _ _ (Nat.le_refl m) hnextRef (by omega) (by omega)
            (Nat.le_refl _) (by omega) (same_of_wordAt hnextRef (by omega) hmatch.2)
            (hput'.mono (by omega)) (by omega)
        · exact ihSearch m _ _ _ hput' (by omega) (by omega)

/-- `LZ4_compress` writes a block that tells its source, unless that is too long. -/
theorem compress_block (src : List UInt8) (hsize : src.length ≤ LZ4_MAX_INPUT_SIZE) :
    ∃ steps last, compress src = some (block steps last) ∧ Tells src.length last 0 steps ∧
      steps.foldl Step.play [] ++ last = src := by
  obtain ⟨tableType, hcompress, hu16⟩ : ∃ tableType, compress src = compressGeneric src tableType ∧
      ¬ (tableType = .byU16 ∧ src.length ≥ LZ4_64KLIMIT) := by
    unfold compress
    split
    · rename_i hlt
      exact ⟨.byU16, rfl, fun hc => absurd hc.2 (by omega)⟩
    · exact ⟨.byU32, rfl, by simp⟩
  have hlong : ¬ src.length > LZ4_MAX_INPUT_SIZE := by omega
  rw [hcompress, compressGeneric, if_neg hlong, if_neg hu16]
  by_cases hshort : src.length < LZ4_minLength
  · -- all of it is literals
    refine ⟨[], src, ?_, Nat.zero_add _, rfl⟩
    rw [if_pos hshort, lastLiterals_eq, List.drop_zero]
    rfl
  · have hthirteen : LZ4_minLength = 13 := rfl
    have htable : Behind (putPosition src 0 (fun _ => 0) tableType) 1 :=
      Behind.put (fun _ => Nat.one_pos) Nat.one_pos _ _
    obtain ⟨anchor, steps, hloop, -, htells, htold⟩ :=
      (@mainLoop_spec src tableType (2 * src.length)).1 0 (hashPosition src 1 tableType)
        (putPosition src 0 (fun _ => 0) tableType) [] htable (by omega) (by omega)
    refine ⟨steps, src.drop anchor, ?_, htells, ?_⟩
    · rw [if_neg hshort]
      dsimp only
      rw [hloop, Option.map_some, lastLiterals_eq]
      rfl
    · rw [List.take_zero] at htold
      rw [htold, List.take_append_drop]

end Source

/-! The size of a block. -/

theorem length_extBytes_le (n : Nat) : (extBytes n).length ≤ n / 255 + 1 ∧
    (extBytes n).length ≤ n := by
  unfold extBytes
  split
  · simp
  · simp
    omega

theorem length_block_le {n pos : Nat} {last : List UInt8} {steps : List (Step UInt8)}
    (htells : Tells n last pos steps) :
    pos + (block steps last).length ≤ n + (n - pos) / 255 + 2 := by
  induction steps generalizing pos with
  | nil =>
    obtain rfl : pos + last.length = n := htells
    have hext := (length_extBytes_le last.length).1
    simp [block, lastCode]
    omega
  | cons s steps ih =>
    obtain ⟨-, -, -, -, -, hfour, hrest⟩ := htells
    have hle := hrest.le
    have hlen := ih hrest
    have hlits := (length_extBytes_le s.literals.length).1
    have hmatch := (length_extBytes_le (s.length - 4)).2
    -- the token and the offset are made up for by the match, but for a byte
    have hcode : (code s).length ≤ s.literals.length + s.length + s.literals.length / 255 := by
      simp [code, wordBytes_length]
      omega
    rw [block_cons, List.length_append]
    omega

/-- What is compressed fits the bound, and is decompressed to the same into any buffer that is large
enough. -/
theorem decompress_compress (src : List UInt8) (size : Nat) (mem : Nat → UInt8)
    (hsrc : src.length ≤ LZ4_MAX_INPUT_SIZE) (hsize : src.length ≤ size) :
    ∃ bytes mem', compress src = some bytes ∧ bytes ≠ [] ∧
      bytes.length ≤ LZ4_compressBound src.length ∧
      decompressSafe bytes size mem = some ((src.length : Int), mem') ∧
      told mem' src.length = src := by
  obtain ⟨steps, last, hcompress, htells, htold⟩ := compress_block src hsrc
  obtain ⟨mem', hdecompress, hmem⟩ := decompressSafe_block htells hsize mem
  have hbound := length_block_le htells
  have hpos := length_block_ge steps last
  refine ⟨block steps last, mem', hcompress, ?_, ?_, hdecompress, hmem.trans htold⟩
  · intro hnil
    rw [hnil, List.length_nil] at hpos
    omega
  · have hlong : ¬ src.length > LZ4_MAX_INPUT_SIZE := by omega
    rw [LZ4_compressBound, if_neg hlong]
    omega

/-- Forty bytes into a buffer that is a byte longer. -/
theorem decompress_compress_run :
    ∃ bytes mem', compress (List.replicate 40 97) = some bytes ∧ bytes ≠ [] ∧
      bytes.length ≤ LZ4_compressBound (List.replicate 40 (97 : UInt8)).length ∧
      decompressSafe bytes 41 (fun _ => 7) =
        some (((List.replicate 40 (97 : UInt8)).length : Int), mem') ∧
      told mem' (List.replicate 40 (97 : UInt8)).length = List.replicate 40 97 :=
  decompress_compress (List.replicate 40 97) 41 (fun _ => 7) (by decide) (by decide)

/-! The sender of secure messages. -/

def decompressInto (src : List UInt8) (size : Nat) : Int × List UInt8 :=
  match decompressSafe src size fun _ => 0 with
  | some (r, mem) => (r, told mem size)
  | none => (-1, told (fun _ => 0) size)

theorem length_decompressInto (src : List UInt8) (size : Nat) :
    (decompressInto src size).2.length = size := by
  unfold decompressInto
  split <;> simp [told]

def withLz4 (lib : SenderLib) : SenderLib :=
  { lib with
    lz4Compress := fun v => (compress v).getD []
    lz4Decompress := decompressInto
    lz4Decompress_length := length_decompressInto }

/-- What is assumed of LZ4 where messages are sent holds of lz4.c. -/
theorem withLz4_sound {lib : SenderLib}
    (hsymm : ∀ r k, lib.computeKey r (lib.pub k) = lib.computeKey k (lib.pub r))
    (haes : ∀ key block : List UInt8, block.length = 16 →
      lib.aesDecrypt key (lib.aesEncrypt key block) = block)
    (hrecovers : ∀ secret hash, ∃ rs, lib.ecdsaSign secret hash = some rs ∧
      ∃ nRecId < 4, lib.recover hash rs nRecId = some (lib.pub secret)) :
    (withLz4 lib).Sound := by
  have hlong : ∀ v : List UInt8, ¬ v.length ≤ LZ4_MAX_INPUT_SIZE → compress v = some [] := by
    intro v hv
    have hlimit : ¬ v.length < LZ4_64KLIMIT := by
      have : LZ4_64KLIMIT ≤ LZ4_MAX_INPUT_SIZE := by decide
      omega
    rw [compress, if_neg hlimit, compressGeneric, if_pos (by omega)]
  refine ⟨hsymm, haes, hrecovers, fun v => ?_, fun v hne => ?_⟩
  · by_cases hv : v.length ≤ LZ4_MAX_INPUT_SIZE
    · obtain ⟨steps, last, hcompress, htells, -⟩ := compress_block v hv
      have hbound := length_block_le htells
      simp only [withLz4, hcompress, Option.getD_some]
      omega
    · simp [withLz4, hlong v hv]
  · by_cases hv : v.length ≤ LZ4_MAX_INPUT_SIZE
    · obtain ⟨steps, last, hcompress, htells, htold⟩ := compress_block v hv
      obtain ⟨mem', hdecompress, hmem⟩ :=
        decompressSafe_block htells (Nat.le_refl v.length) fun _ => 0
      simp only [withLz4, hcompress, Option.getD_some, decompressInto, hdecompress, hmem, htold]
    · exact absurd (by simp [withLz4, hlong v hv]) hne

end Triangles.LZ4
