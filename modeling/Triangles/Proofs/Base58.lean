import Mathlib.Data.List.TakeWhile
import Mathlib.Data.Nat.Digits.Lemmas
import Triangles.Model.Base58

/-! Base58 text is read back: decoding inverts encoding, with and without the checksum, and so
the text of an address gives the address. -/

namespace Triangles

/-! Numbers and their bytes. -/

theorem leValue_append (a b : List UInt8) :
    leValue (a ++ b) = leValue a + 256 ^ a.length * leValue b := by
  induction a with
  | nil => simp [leValue]
  | cons x a ih =>
    rw [List.cons_append, leValue, ih, leValue, List.length_cons, Nat.pow_succ', Nat.mul_add,
      Nat.mul_assoc, Nat.add_assoc]

theorem leValue_replicate_zero (n : Nat) : leValue (List.replicate n 0) = 0 := by
  induction n with
  | zero => rfl
  | succ n ih => rw [List.replicate_succ, leValue, ih]; rfl

/-- Bytes that end in a nonzero one are the bytes of their number. -/
theorem leBytes_leValue : ∀ {l : List UInt8} {width : Nat}, l.length ≤ width →
    (∀ h : l ≠ [], l.getLast h ≠ 0) → leBytes width (leValue l) = l
  | [], 0, _, _ => rfl
  | [], width + 1, _, _ => rfl
  | b :: l, 0, hlen, _ => by simp at hlen
  | b :: l, width + 1, hlen, hlast => by
    have hb := b.toNat_lt
    have hpos : b.toNat + 256 * leValue l ≠ 0 := by
      intro hzero
      cases l with
      | nil =>
        have hne := hlast (List.cons_ne_nil _ _)
        rw [List.getLast_singleton] at hne
        exact hne (UInt8.toNat_inj.mp (by simpa [leValue] using hzero))
      | cons c l =>
        have hrest : leBytes (l.length + 1) (leValue (c :: l)) = c :: l :=
          leBytes_leValue (Nat.le_refl _) fun h => by
            rw [← List.getLast_cons h]
            exact hlast _
        have hval : leValue (c :: l) = 0 := by omega
        rw [hval, leBytes, if_pos rfl] at hrest
        exact absurd hrest (List.cons_ne_nil _ _).symm
    have hmod : (b.toNat + 256 * leValue l) % 256 = b.toNat := by omega
    have hdiv : (b.toNat + 256 * leValue l) / 256 = leValue l := by omega
    have hrest : leBytes width (leValue l) = l := by
      refine leBytes_leValue (by simpa using hlen) fun h => ?_
      rw [← List.getLast_cons h]
      exact hlast _
    rw [leValue, leBytes, if_neg hpos, hmod, hdiv, hrest, UInt8.ofNat_toNat]

/-! Digits. -/

def base58Char (d : Nat) : UInt8 := pszBase58.getD d 0

theorem base58Char_digit : ∀ d < 58, pszBase58.idxOf? (base58Char d) = some d := by decide

theorem base58Char_plain : ∀ d < 58, base58Char d ≠ 0 ∧ isSpace (base58Char d) = false := by decide

theorem base58Char_zero : ∀ d < 58, base58Char d = pszBase58.getD 0 0 → d = 0 := by decide

theorem base58Digits_eq {rounds bn : Nat} (h : bn < 58 ^ rounds) :
    base58Digits rounds bn = (Nat.digits 58 bn).map base58Char := by
  induction rounds generalizing bn with
  | zero =>
    obtain rfl : bn = 0 := by simpa using h
    rfl
  | succ rounds ih =>
    unfold base58Digits
    split
    · rename_i hzero
      rw [hzero, Nat.digits_zero, List.map_nil]
    · rename_i hzero
      have hdiv : bn / 58 < 58 ^ rounds := by
        rw [Nat.pow_succ] at h
        exact Nat.div_lt_of_lt_mul (by omega)
      rw [ih hdiv, Nat.digits_def' (by decide) (Nat.pos_of_ne_zero hzero), List.map_cons]
      rfl

theorem base58Value_digits (ds : List Nat) (hds : ∀ d ∈ ds, d < 58) (bn : Nat) :
    base58Value (ds.map base58Char) bn = some (ds.foldl (fun n d => n * 58 + d) bn) := by
  induction ds generalizing bn with
  | nil => rfl
  | cons d ds ih =>
    rw [List.map_cons, base58Value, base58Char_digit d (hds d List.mem_cons_self)]
    exact ih (fun d' h => hds d' (List.mem_cons_of_mem _ h)) _

theorem foldl_reverse_digits (ds : List Nat) :
    ds.reverse.foldl (fun n d => n * 58 + d) 0 = Nat.ofDigits 58 ds := by
  rw [List.foldl_reverse, Nat.ofDigits_eq_foldr]
  congr 1
  funext d n
  simp [Nat.mul_comm, Nat.add_comm]

/-! The round trip. -/

/-- A "1" for each zero at the front, then the digits of the number. -/
theorem encodeBase58_eq (vch : List UInt8) :
    encodeBase58 vch = ((Nat.digits 58 (leValue vch.reverse)) ++
      List.replicate (vch.takeWhile (· == 0)).length 0).reverse.map base58Char := by
  have hbound : leValue vch.reverse < 58 ^ (2 * vch.length) := by
    calc leValue vch.reverse < 256 ^ vch.reverse.length := leValue_lt _
      _ ≤ (58 ^ 2) ^ vch.reverse.length := Nat.pow_le_pow_left (by decide) _
      _ = 58 ^ (2 * vch.length) := by rw [← Nat.pow_mul, List.length_reverse]
  unfold encodeBase58
  simp only
  rw [base58Digits_eq hbound, List.map_reverse, List.map_append, List.map_replicate]
  rfl

theorem base58_digits_lt {vch : List UInt8} {n d : Nat}
    (h : d ∈ (Nat.digits 58 (leValue vch.reverse) ++ List.replicate n 0).reverse) : d < 58 := by
  rw [List.mem_reverse, List.mem_append] at h
  rcases h with h | h
  · exact Nat.digits_lt_base (by decide) h
  · rw [List.eq_of_mem_replicate h]
    decide

theorem cStr_encodeBase58 (vch : List UInt8) : cStr (encodeBase58 vch) = encodeBase58 vch := by
  rw [encodeBase58_eq, cStr, List.takeWhile_eq_self_iff]
  intro c hc
  obtain ⟨d, hd, rfl⟩ := List.mem_map.mp hc
  simpa using (base58Char_plain d (base58_digits_lt hd)).1

theorem dropWhile_encodeBase58 (vch : List UInt8) :
    (encodeBase58 vch).dropWhile isSpace = encodeBase58 vch := by
  rw [encodeBase58_eq, List.dropWhile_eq_self_iff]
  intro hlen
  obtain ⟨d, hd, hc⟩ := List.mem_map.mp (List.getElem_mem hlen)
  rw [← hc]
  simpa using (base58Char_plain d (base58_digits_lt hd)).2

theorem base58Value_encode (vch : List UInt8) :
    base58Value (encodeBase58 vch) 0 = some (leValue vch.reverse) := by
  rw [encodeBase58_eq, base58Value_digits _ (fun d hd => base58_digits_lt hd),
    foldl_reverse_digits, Nat.ofDigits_append_replicate_zero, Nat.ofDigits_digits]

/-- The ones at the front of the text count the zeros at the front of the bytes. -/
theorem leading_ones (vch : List UInt8) :
    ((encodeBase58 vch).takeWhile (· == pszBase58.getD 0 0)).length =
      (vch.takeWhile (· == 0)).length := by
  rw [encodeBase58_eq, List.reverse_append, List.map_append, List.reverse_replicate,
    List.map_replicate, List.takeWhile_append_of_pos (by simp [base58Char]), List.length_append,
    List.length_replicate]
  generalize leValue vch.reverse = bn
  have hnone : ((Nat.digits 58 bn).reverse.map base58Char).takeWhile
      (· == pszBase58.getD 0 0) = [] := by
    by_cases hbn : bn = 0
    · rw [hbn, Nat.digits_zero]
      rfl
    · have hne := Nat.digits_ne_nil_iff_ne_zero (b := 58) |>.mpr hbn
      have hlast := Nat.getLast_digit_ne_zero 58 hbn
      obtain ⟨init, hinit⟩ : ∃ init, Nat.digits 58 bn = init ++ [(Nat.digits 58 bn).getLast hne] :=
        ⟨_, (List.dropLast_append_getLast hne).symm⟩
      have hlt : (Nat.digits 58 bn).getLast hne < 58 :=
        Nat.digits_lt_base (by decide) (List.getLast_mem hne)
      rw [hinit, List.reverse_append, List.reverse_singleton, List.singleton_append, List.map_cons,
        List.takeWhile_cons_of_neg]
      rw [beq_iff_eq]
      exact fun h => hlast (base58Char_zero _ hlt h)
  rw [hnone, List.length_nil, Nat.add_zero]

/-- A text has at least as many digits as it has bytes after the zeros at the front. -/
theorem encodeBase58_long (vch : List UInt8) :
    (vch.dropWhile (· == 0)).length ≤ (Nat.digits 58 (leValue vch.reverse)).length := by
  cases hrest : vch.dropWhile (· == 0) with
  | nil => exact Nat.zero_le _
  | cons x rest =>
    have hx : x ≠ 0 := by
      have hhead := List.head_dropWhile_not (· == 0) (l := vch) (by rw [hrest]; exact List.cons_ne_nil _ _)
      simpa [hrest] using hhead
    have hpos : 1 ≤ x.toNat := by
      have : x.toNat ≠ 0 := fun h => hx (UInt8.toNat_inj.mp h)
      omega
    have hvalue : 256 ^ rest.length ≤ leValue vch.reverse := by
      calc 256 ^ rest.length ≤ 256 ^ rest.length * x.toNat := Nat.le_mul_of_pos_right _ hpos
        _ ≤ leValue (x :: rest).reverse := by
          rw [List.reverse_cons, leValue_append, List.length_reverse]
          simp only [leValue, Nat.mul_zero, Nat.add_zero]
          exact Nat.le_add_left ..
        _ ≤ leValue vch.reverse := by
          rw [← List.takeWhile_append_dropWhile (p := (· == 0)) (l := vch), hrest,
            List.reverse_append, leValue_append]
          exact Nat.le_add_right ..
    have hdigits : leValue vch.reverse < 256 ^ (Nat.digits 58 (leValue vch.reverse)).length :=
      (Nat.lt_base_pow_length_digits (by decide)).trans_le (Nat.pow_le_pow_left (by decide) _)
    exact (Nat.pow_lt_pow_iff_right (by decide)).mp (hvalue.trans_lt hdigits)

theorem takeWhile_zeros (vch : List UInt8) :
    vch.takeWhile (· == 0) = List.replicate (vch.takeWhile (· == 0)).length 0 := by
  rw [List.eq_replicate_iff]
  refine ⟨rfl, fun b hb => ?_⟩
  simpa using List.mem_takeWhile_imp hb

/-- Bytes that are written in base 58 are read back. -/
theorem decode_encodeBase58 (vch : List UInt8) : decodeBase58 (encodeBase58 vch) = some vch := by
  have hvalue : leValue vch.reverse = leValue (vch.dropWhile (· == 0)).reverse := by
    conv_lhs => rw [← List.takeWhile_append_dropWhile (p := (· == 0)) (l := vch)]
    rw [takeWhile_zeros, List.reverse_append, leValue_append, List.reverse_replicate,
      leValue_replicate_zero, Nat.mul_zero, Nat.add_zero]
  have hbytes : leBytes (encodeBase58 vch).length (leValue vch.reverse) =
      (vch.dropWhile (· == 0)).reverse := by
    have hlong := encodeBase58_long vch
    rw [hvalue]
    apply leBytes_leValue
    · rw [encodeBase58_eq]
      simp only [List.length_reverse, List.length_map, List.length_append]
      omega
    · intro hne
      have hhead := List.head_dropWhile_not (· == 0) (l := vch) (by simpa using hne)
      rw [List.getLast_reverse]
      simpa using hhead
  unfold decodeBase58
  simp only [cStr_encodeBase58, dropWhile_encodeBase58, base58Value_encode, leading_ones, hbytes,
    List.reverse_reverse]
  rw [← takeWhile_zeros, List.takeWhile_append_dropWhile]

theorem decode_encodeBase58Check {hash : List UInt8 → List UInt8} {v : List UInt8}
    (h : 4 ≤ (hash v).length) : decodeBase58Check hash (encodeBase58Check hash v) = some v := by
  have hsum : ((hash v).take 4).length = 4 := by
    rw [List.length_take]
    omega
  have hlen : (v ++ (hash v).take 4).length - 4 = v.length := by
    rw [List.length_append, hsum, Nat.add_sub_cancel]
  unfold decodeBase58Check encodeBase58Check
  simp only [decode_encodeBase58, hlen, List.take_left, List.drop_left]
  rw [if_neg (by rw [List.length_append, hsum]; omega), if_neg (not_not_intro rfl)]

theorem setString_toString {hash : List UInt8 → List UInt8} (addr : CTrianglesAddress)
    (h : 4 ≤ (hash (addr.nVersion :: addr.vchData)).length) :
    CTrianglesAddress.setString hash (addr.toString hash) = addr ∧
      CTrianglesAddress.setStringOk hash (addr.toString hash) = true := by
  have hdecode : decodeBase58Check hash (cStr (addr.toString hash)) =
      some (addr.nVersion :: addr.vchData) := by
    unfold CTrianglesAddress.toString
    rw [encodeBase58Check, cStr_encodeBase58, ← encodeBase58Check, decode_encodeBase58Check h]
  simp [CTrianglesAddress.setString, CTrianglesAddress.setStringOk, hdecode]

/-! The length of a text. -/

theorem base58Digits_length {k rounds bn : Nat} (hk : 58 ^ k ≤ bn) (hr : k < rounds) :
    k < (base58Digits rounds bn).length := by
  induction k generalizing rounds bn with
  | zero =>
    obtain ⟨n, rfl⟩ : ∃ n, rounds = n + 1 := ⟨rounds - 1, by omega⟩
    rw [base58Digits, if_neg (by rw [Nat.pow_zero] at hk; omega)]
    simp
  | succ k ih =>
    obtain ⟨n, rfl⟩ : ∃ n, rounds = n + 1 := ⟨rounds - 1, by omega⟩
    have hpos : 0 < 58 ^ (k + 1) := Nat.pow_pos (by decide)
    have hdiv : 58 ^ k ≤ bn / 58 := by
      rw [Nat.pow_succ] at hk
      exact (Nat.le_div_iff_mul_le (by decide)).mpr hk
    rw [base58Digits, if_neg (by omega), List.length_cons]
    have hlen : k < (base58Digits n (bn / 58)).length := ih hdiv (by omega)
    omega

/-- Four bytes or more with a nonzero first one take more than four digits. -/
theorem encodeBase58_length {x : UInt8} {rest : List UInt8} (hx : x ≠ 0) (hrest : 3 ≤ rest.length) :
    4 < (encodeBase58 (x :: rest)).length := by
  have hpos : 1 ≤ x.toNat := by
    have : x.toNat ≠ 0 := fun h => hx (UInt8.toNat_inj.mp h)
    omega
  have hvalue : 58 ^ 4 ≤ leValue (x :: rest).reverse := by
    calc 58 ^ 4 ≤ 256 ^ 3 * 1 := by decide
      _ ≤ 256 ^ rest.length * x.toNat :=
        Nat.mul_le_mul (Nat.pow_le_pow_right (by decide) hrest) hpos
      _ ≤ leValue (x :: rest).reverse := by
        rw [List.reverse_cons, leValue_append, List.length_reverse]
        simp only [leValue, Nat.mul_zero, Nat.add_zero]
        exact Nat.le_add_left ..
  have hdigits : 4 < (base58Digits (2 * (x :: rest).length)
      (leValue (x :: rest).reverse)).length :=
    base58Digits_length hvalue (by rw [List.length_cons]; omega)
  unfold encodeBase58
  simp only [List.length_reverse, List.length_append]
  omega

end Triangles
