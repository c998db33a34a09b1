import Mathlib.Algebra.Order.Ring.Nat
import Mathlib.Data.List.Induction
import Mathlib.Tactic.Linarith
import Mathlib.Tactic.Ring

/-! Digits of one width, the first on top, read again as digits of another width. -/

namespace Regroup

variable {w k n p j : Nat} {l m read out : List Nat} {d : Nat}

def value (w : Nat) (digits : List Nat) : Nat := digits.foldl (fun n d => n * 2 ^ w + d) 0

@[simp] theorem value_nil : value w [] = 0 := rfl

@[simp] theorem value_concat : value w (l ++ [d]) = value w l * 2 ^ w + d := by
  simp [value]

theorem value_inj (hl : ∀ d ∈ l, d < 2 ^ w) (hm : ∀ d ∈ m, d < 2 ^ w) (hlen : l.length = m.length)
    (h : value w l = value w m) : l = m := by
  induction l using List.reverseRecOn generalizing m with
  | nil => exact (List.eq_nil_of_length_eq_zero hlen.symm).symm
  | append_singleton l d ih =>
    obtain ⟨m, e, rfl⟩ : ∃ m' e, m = m' ++ [e] := by
      have hne : m ≠ [] := fun hm => by simp [hm] at hlen
      exact ⟨m.dropLast, m.getLast hne, (List.dropLast_concat_getLast hne).symm⟩
    have hd := hl d (by simp)
    have he := hm e (by simp)
    rw [value_concat, value_concat] at h
    have hlast : d = e := by
      have hmod := congrArg (· % 2 ^ w) h
      simpa [Nat.mod_eq_of_lt hd, Nat.mod_eq_of_lt he] using hmod
    subst hlast
    have hfirst : value w l = value w m :=
      Nat.eq_of_mul_eq_mul_right (Nat.two_pow_pos w) (Nat.add_right_cancel h)
    rw [ih (fun c hc => hl c (by simp [hc])) (fun c hc => hm c (by simp [hc])) (by simpa using hlen) hfirst]

/-- What a reader of digits of `w` bits holds: the digits of `k` bits that it has put out, and `n` bits
with the value `p` that it still has. -/
structure Holds (w k : Nat) (read out : List Nat) (n p : Nat) : Prop where
  bits : w * read.length = k * out.length + n
  number : value w read = value k out * 2 ^ n + p
  rest : p < 2 ^ n
  small : ∀ d ∈ out, d < 2 ^ k

theorem Holds.empty : Holds w k [] [] 0 0 := ⟨rfl, rfl, by simp, by simp⟩

/-- One more digit comes in. -/
theorem Holds.take (h : Holds w k read out n p) (hd : d < 2 ^ w) :
    Holds w k (read ++ [d]) out (n + w) (p * 2 ^ w + d) where
  bits := by
    have hb := h.bits
    rw [List.length_append, List.length_singleton, Nat.mul_succ]
    omega
  number := by
    rw [value_concat, h.number]
    ring
  rest := by
    have hp : (p + 1) * 2 ^ w ≤ 2 ^ n * 2 ^ w := Nat.mul_le_mul_right _ h.rest
    rw [Nat.pow_add]
    linarith only [hp, hd]
  small := h.small

/-- The top `k` bits go out. -/
theorem Holds.emit (h : Holds w k read out (n + k) p) :
    Holds w k read (out ++ [p / 2 ^ n]) n (p % 2 ^ n) where
  bits := by
    have hb := h.bits
    rw [List.length_append, List.length_singleton, Nat.mul_succ]
    omega
  number := by
    have hp : 2 ^ n * (p / 2 ^ n) + p % 2 ^ n = p := Nat.div_add_mod p (2 ^ n)
    rw [h.number, value_concat, Nat.pow_add]
    nth_rewrite 1 [← hp]
    ring
  rest := Nat.mod_lt p (Nat.two_pow_pos n)
  small := by
    have hrest := h.rest
    rw [Nat.pow_add] at hrest
    intro d hd
    rcases List.mem_append.mp hd with hd | hd
    · exact h.small d hd
    · rw [List.mem_singleton.mp hd]
      exact Nat.div_lt_of_lt_mul hrest

/-! The same with shifts and masks, as readers of machine words do it. -/

theorem shift_or (h : d < 2 ^ w) : p <<< w ||| d = p * 2 ^ w + d := by
  rw [Nat.shiftLeft_eq, Nat.mul_comm, Nat.two_pow_add_eq_or_of_lt h]

/-- A digit that does not fill the next one. -/
theorem Holds.shiftIn (h : Holds w k read out n p) (hd : d < 2 ^ w) :
    Holds w k (read ++ [d]) out (n + w) (p <<< w ||| d) := by
  rw [shift_or hd]
  exact h.take hd

/-- A digit that does. -/
theorem Holds.shiftOut (h : Holds w k read out n p) (hd : d < 2 ^ w) (hn : n ≤ k) (hk : k ≤ n + w) :
    Holds w k (read ++ [d]) (out ++ [p <<< (k - n) ||| d >>> (n + w - k)]) (n + w - k)
      (d &&& 2 ^ (n + w - k) - 1) := by
  obtain ⟨r, hr⟩ : ∃ r, n + w = r + k := ⟨n + w - k, by omega⟩
  have hw : w = r + (k - n) := by omega
  have hpow : (2 : Nat) ^ w = 2 ^ r * 2 ^ (k - n) := by rw [← Nat.pow_add, ← hw]
  have htop : d / 2 ^ r < 2 ^ (k - n) := Nat.div_lt_of_lt_mul (by rwa [← hpow])
  have htake := h.take hd
  rw [hr] at htake
  have hemit := htake.emit
  have hdiv : (p * 2 ^ w + d) / 2 ^ r = p * 2 ^ (k - n) + d / 2 ^ r := by
    rw [hpow, show p * (2 ^ r * 2 ^ (k - n)) = 2 ^ r * (p * 2 ^ (k - n)) by ring,
      Nat.mul_add_div (Nat.two_pow_pos r)]
  have hmod : (p * 2 ^ w + d) % 2 ^ r = d % 2 ^ r := by
    rw [hpow, show p * (2 ^ r * 2 ^ (k - n)) = 2 ^ r * (p * 2 ^ (k - n)) by ring, Nat.mul_add_mod]
  rw [hdiv, hmod] at hemit
  rw [show n + w - k = r by omega, Nat.shiftRight_eq_div_pow, shift_or htop,
    Nat.and_two_pow_sub_one_eq_mod]
  exact hemit

/-- A second digit out of the same one. -/
theorem Holds.shiftAgain (h : Holds w k read out n (d &&& 2 ^ n - 1)) (hk : k ≤ n) :
    Holds w k read (out ++ [d >>> (n - k) &&& 2 ^ k - 1]) (n - k) (d &&& 2 ^ (n - k) - 1) := by
  obtain ⟨r, rfl⟩ : ∃ r, n = r + k := ⟨n - k, by omega⟩
  rw [Nat.and_two_pow_sub_one_eq_mod] at h
  have hemit := h.emit
  rw [Nat.pow_add, Nat.mod_mul_right_div_self, Nat.mod_mul_right_mod] at hemit
  rw [Nat.add_sub_cancel, Nat.and_two_pow_sub_one_eq_mod, Nat.and_two_pow_sub_one_eq_mod,
    Nat.shiftRight_eq_div_pow]
  exact hemit

structure Padded (w k : Nat) (read out : List Nat) (j : Nat) : Prop where
  bits : k * out.length = w * read.length + j
  number : value k out = value w read * 2 ^ j
  small : ∀ d ∈ out, d < 2 ^ k

theorem Holds.done (h : Holds w k read out 0 p) : Padded w k read out 0 where
  bits := h.bits.symm
  number := by
    have hp := h.rest
    have hv := h.number
    rw [Nat.pow_zero] at hp hv ⊢
    omega
  small := h.small

/-- The last bits make a digit with zeros behind them. -/
theorem Holds.pad (h : Holds w k read out n p) (hn : n ≤ k) :
    Padded w k read (out ++ [p * 2 ^ (k - n)]) (k - n) where
  bits := by
    have hb := h.bits
    rw [List.length_append, List.length_singleton, Nat.mul_succ]
    omega
  number := by
    have hk : (2 : Nat) ^ k = 2 ^ n * 2 ^ (k - n) := by rw [← Nat.pow_add, Nat.add_sub_cancel' hn]
    rw [value_concat, h.number, hk]
    ring
  small := by
    have hk : (2 : Nat) ^ k = 2 ^ n * 2 ^ (k - n) := by rw [← Nat.pow_add, Nat.add_sub_cancel' hn]
    intro d hd
    rcases List.mem_append.mp hd with hd | hd
    · exact h.small d hd
    · rw [List.mem_singleton.mp hd, hk]
      exact Nat.mul_lt_mul_of_pos_right h.rest (Nat.two_pow_pos _)

/-- What was padded is read back, and the bits left are the zeros. -/
theorem Padded.readBack (h : Padded w k read out j) (hread : ∀ d ∈ read, d < 2 ^ w) (hj : j < w)
    (hback : Holds k w out m n p) (hn : n < w) : m = read ∧ n = j ∧ p = 0 := by
  have hbits : w * read.length + j = w * m.length + n := h.bits.symm.trans hback.bits
  have hnj : n = j := by
    have hmod := congrArg (· % w) hbits
    simpa [Nat.mod_eq_of_lt hj, Nat.mod_eq_of_lt hn, eq_comm] using hmod
  subst hnj
  have hlen : m.length = read.length :=
    Nat.eq_of_mul_eq_mul_left (Nat.zero_lt_of_lt hn) (Nat.add_right_cancel hbits).symm
  have hvalue : value w read * 2 ^ n = value w m * 2 ^ n + p := h.number.symm.trans hback.number
  have hp : p = 0 := by
    have hmod := congrArg (· % 2 ^ n) hvalue
    simpa [Nat.mod_eq_of_lt hback.rest, eq_comm] using hmod
  subst hp
  have hsame : value w m = value w read :=
    (Nat.eq_of_mul_eq_mul_right (Nat.two_pow_pos n) (by simpa only [Nat.add_zero] using hvalue)).symm
  exact ⟨value_inj hback.small hread hlen hsame, rfl, rfl⟩

/-- What has read everything but zeros, has read something padded. -/
theorem Holds.padded (h : Holds w k read out n 0) (hread : ∀ d ∈ read, d < 2 ^ w) :
    Padded k w out read n := ⟨h.bits, h.number, hread⟩

/-- There is one way to pad with less than a digit. -/
theorem Padded.unique {out' : List Nat} {j' : Nat} (h : Padded w k read out j)
    (h' : Padded w k read out' j') (hj : j < k) (hj' : j' < k) : out = out' ∧ j = j' := by
  have hbits : k * out.length + j' = k * out'.length + j := by
    have hb := h.bits
    have hb' := h'.bits
    omega
  have hjj : j = j' := by
    have hmod := congrArg (· % k) hbits
    simpa [Nat.mod_eq_of_lt hj, Nat.mod_eq_of_lt hj', eq_comm] using hmod
  subst hjj
  have hlen : out.length = out'.length :=
    Nat.eq_of_mul_eq_mul_left (Nat.zero_lt_of_lt hj) (Nat.add_right_cancel hbits)
  exact ⟨value_inj h.small h'.small hlen (h.number.trans h'.number.symm), rfl⟩

end Regroup
