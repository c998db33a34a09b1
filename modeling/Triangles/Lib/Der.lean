import Mathlib.Data.Nat.Digits.Lemmas
import Mathlib.Data.UInt

/-! The distinguished encoding of nonnegative integers and of pairs of them. -/

namespace Triangles

/-! Numbers as bytes, the most significant first. -/

def beValue (bytes : List UInt8) : Nat := Nat.ofDigits 256 (bytes.reverse.map UInt8.toNat)

/-- The bytes of a number, without leading zeros. -/
def beBytes (n : Nat) : List UInt8 := ((Nat.digits 256 n).map UInt8.ofNat).reverse

theorem beValue_beBytes (n : Nat) : beValue (beBytes n) = n := by
  have hdigits : ((Nat.digits 256 n).map UInt8.ofNat).map UInt8.toNat = Nat.digits 256 n := by
    rw [List.map_map]
    conv_rhs => rw [← List.map_id (Nat.digits 256 n)]
    refine List.map_congr_left fun d hd => ?_
    simpa using Nat.mod_eq_of_lt (Nat.digits_lt_base (by decide) hd)
  rw [beValue, beBytes, List.reverse_reverse, hdigits, Nat.ofDigits_digits]

theorem beBytes_beValue {b : UInt8} (bytes : List UInt8) (hb : b ≠ 0) :
    beBytes (beValue (b :: bytes)) = b :: bytes := by
  have hdigits : Nat.digits 256 (beValue (b :: bytes)) =
      (b :: bytes).reverse.map UInt8.toNat := by
    refine Nat.digits_ofDigits 256 (by decide) _ ?_ ?_
    · intro d hd
      obtain ⟨c, _, rfl⟩ := List.mem_map.mp hd
      exact c.toNat_lt
    · intro _
      rw [List.getLast_map, List.getLast_reverse]
      intro hzero
      exact hb (UInt8.toNat_inj.mp hzero)
  have hbytes : ∀ l : List UInt8, (l.map UInt8.toNat).map UInt8.ofNat = l := by
    intro l
    rw [List.map_map]
    conv_rhs => rw [← List.map_id l]
    exact List.map_congr_left fun c _ => UInt8.ofNat_toNat
  rw [beBytes, hdigits, hbytes, List.reverse_reverse]

theorem beValue_zero_cons (bytes : List UInt8) : beValue (0 :: bytes) = beValue bytes := by
  rw [beValue, List.reverse_cons, List.map_append]
  exact Nat.ofDigits_append_zero _

/-- The bytes of a number do not start with a zero. -/
theorem beBytes_head (n : Nat) {b : UInt8} {bytes : List UInt8} (h : beBytes n = b :: bytes) :
    b ≠ 0 := by
  rintro rfl
  have hn : n ≠ 0 := by
    rintro rfl
    cases h
  have hne : Nat.digits 256 n ≠ [] := Nat.digits_ne_nil_iff_ne_zero.mpr hn
  have hlt := Nat.digits_lt_base (by decide) (List.getLast_mem hne)
  have hzero : UInt8.ofNat ((Nat.digits 256 n).getLast hne) = 0 := by
    have hdigits := congrArg List.reverse h
    rw [beBytes, List.reverse_reverse] at hdigits
    have hget := congrArg List.getLast? hdigits
    rw [List.getLast?_map, List.getLast?_eq_some_getLast hne, List.reverse_cons,
      List.getLast?_concat] at hget
    exact Option.some.inj hget
  have hnat := congrArg UInt8.toNat hzero
  rw [UInt8.toNat_ofNat', Nat.mod_eq_of_lt hlt] at hnat
  exact Nat.getLast_digit_ne_zero 256 hn hnat

/-! The contents of an integer: a zero byte keeps the sign bit of a nonnegative number clear. -/

def derContent (n : Nat) : List UInt8 :=
  match beBytes n with
  | [] => [0]
  | b :: bytes => if 0x80 ≤ b then 0 :: b :: bytes else b :: bytes

structure MinimalContent (bytes : List UInt8) : Prop where
  nonempty : bytes.length ≠ 0
  sign : bytes.getD 0 0 < 0x80
  padding : ¬ (1 < bytes.length ∧ bytes.getD 0 0 = 0 ∧ bytes.getD 1 0 < 0x80)

theorem beValue_derContent (n : Nat) : beValue (derContent n) = n := by
  have hvalue := beValue_beBytes n
  unfold derContent
  cases hbytes : beBytes n with
  | nil =>
    rw [hbytes] at hvalue
    rw [← hvalue]
    rfl
  | cons b bytes =>
    rw [hbytes] at hvalue
    dsimp only
    split
    · rw [beValue_zero_cons]
      exact hvalue
    · exact hvalue

theorem derContent_minimal (n : Nat) : MinimalContent (derContent n) := by
  unfold derContent
  cases hbytes : beBytes n with
  | nil => exact ⟨by simp, by decide, by simp⟩
  | cons b bytes =>
    dsimp only
    split
    · rename_i hhigh
      exact ⟨by simp, by rw [List.getD_cons_zero]; decide,
        fun h => absurd h.2.2 (by simpa using hhigh)⟩
    · rename_i hlow
      exact ⟨by simp, by simpa using hlow, fun h => beBytes_head n hbytes h.2.1⟩

theorem derContent_beValue {bytes : List UInt8} (h : MinimalContent bytes) :
    derContent (beValue bytes) = bytes := by
  obtain ⟨hne, hsign, hpad⟩ := h
  cases bytes with
  | nil => exact absurd rfl hne
  | cons b bytes =>
    rw [List.getD_cons_zero] at hsign
    by_cases hb : b = 0
    · subst hb
      cases bytes with
      | nil => rfl
      | cons c bytes =>
        have hhigh : 0x80 ≤ c := by
          by_contra hlow
          exact hpad ⟨by simp, rfl, by simpa using hlow⟩
        have hc : c ≠ 0 := by
          rintro rfl
          exact absurd hhigh (by decide)
        unfold derContent
        rw [beValue_zero_cons, beBytes_beValue bytes hc]
        exact if_pos hhigh
    · unfold derContent
      rw [beBytes_beValue bytes hb]
      exact if_neg (UInt8.not_le.mpr hsign)

/-! Tagged values. -/

def derLength (n : Nat) : List UInt8 :=
  if n < 128 then [UInt8.ofNat n] else UInt8.ofNat (128 + (beBytes n).length) :: beBytes n

def derValue (tag : UInt8) (content : List UInt8) : List UInt8 :=
  tag :: (derLength content.length ++ content)

def derInteger (n : Nat) : List UInt8 := derValue 0x02 (derContent n)

def derPair (r s : Nat) : List UInt8 := derValue 0x30 (derInteger r ++ derInteger s)

/-- A short value has its length in one byte. -/
theorem derValue_short (tag : UInt8) {content : List UInt8} (h : content.length < 128) :
    derValue tag content = tag :: UInt8.ofNat content.length :: content := by
  rw [derValue, derLength, if_pos h]
  rfl

theorem length_lt_derValue (tag : UInt8) (content : List UInt8) :
    content.length < (derValue tag content).length := by
  rw [derValue, List.length_cons, List.length_append]
  omega

theorem derPair_length (r s : Nat) :
    (derContent r).length + (derContent s).length < (derPair r s).length := by
  have hr := length_lt_derValue 0x02 (derContent r)
  have hs := length_lt_derValue 0x02 (derContent s)
  have hpair := length_lt_derValue 0x30 (derInteger r ++ derInteger s)
  rw [List.length_append] at hpair
  unfold derPair
  unfold derInteger at hpair ⊢
  omega

/-- The bytes of a short pair. -/
theorem derPair_short {r s : Nat} (h : (derContent r).length + (derContent s).length + 4 < 128) :
    derPair r s = 0x30 :: UInt8.ofNat ((derContent r).length + (derContent s).length + 4) ::
      0x02 :: UInt8.ofNat (derContent r).length ::
        (derContent r ++ 0x02 :: UInt8.ofNat (derContent s).length :: derContent s) := by
  have hr : derInteger r = 0x02 :: UInt8.ofNat (derContent r).length :: derContent r :=
    derValue_short _ (by omega)
  have hs : derInteger s = 0x02 :: UInt8.ofNat (derContent s).length :: derContent s :=
    derValue_short _ (by omega)
  have hlen : (derInteger r ++ derInteger s).length =
      (derContent r).length + (derContent s).length + 4 := by
    rw [hr, hs, List.length_append, List.length_cons, List.length_cons, List.length_cons,
      List.length_cons]
    omega
  rw [derPair, derValue_short _ (by omega), hlen, hr, hs]
  rfl

end Triangles
